import KcnTools.Protocol.DateForms
import Mathlib

/-!
When the three forms of a date give the same time. The form with a short year is only read from
2000 on, because the cursor stays in front of a year of the last century.
-/

namespace KcnTools.Date

open Gregorian

section Words

theorem Word.append {front back : List UInt8} (first : Word front) (second : Word back) : Word (front ++ back) := by
  intro c member
  rcases List.mem_append.mp member with inFront | inBack
  · exact first c inFront
  · exact second c inBack

theorem skipWeekDay_word {text : List UInt8} (word : Word text) (rest : List UInt8) :
    skipWeekDay (text ++ rest) = skipWeekDay rest := by
  induction text with
  | nil => rfl
  | cons c text ih =>
      have plain := word c List.mem_cons_self
      rw [List.cons_append, skipWeekDay, if_neg plain.1, if_neg plain.2]
      exact ih fun d member => word d (List.mem_cons_of_mem c member)

theorem skipWeekDay_seps {seps rest : List UInt8} (all : ∀ c ∈ seps, isTimeSep c = true) (blank : 32 ∈ seps)
    {kind : UInt8 → Bool} (starts : Starts kind rest) (plain : ∀ c, kind c = true → isTimeSep c = false) :
    skipWeekDay (seps ++ rest) = some rest := by
  induction seps with
  | nil => exact absurd blank List.not_mem_nil
  | cons c seps ih =>
      have later : ∀ d ∈ seps, isTimeSep d = true := fun d member => all d (List.mem_cons_of_mem c member)
      obtain ⟨d, tail, shape, fits⟩ := starts
      rw [List.cons_append, skipWeekDay]
      by_cases space : c = 32
      · rw [if_pos space, skipTimeSep, if_pos (all c List.mem_cons_self), List.dropWhile_append_of_pos later, shape,
          List.dropWhile_cons_of_neg (by rw [plain d fits]; decide)]
      · have dash : c = 45 := ((isTimeSep_iff c).mp (all c List.mem_cons_self)).resolve_left space
        rw [if_neg space, if_neg (by rw [dash]; decide)]
        exact ih later ((List.mem_cons.mp blank).resolve_left (Ne.symm space))

theorem Gap.word (g : Gap) (dashes : 32 ∉ g.text) : Word g.text := by
  intro c member
  constructor
  · rintro rfl
    exact dashes member
  · rintro rfl
    exact absurd (g.separates 0 member) (by decide)

theorem pairText_word {n : Nat} (bound : n < 100) : Word (pairText n) := by
  have digit {k : Nat} (small : k < 10) : UInt8.ofNat (48 + k) ≠ 32 ∧ UInt8.ofNat (48 + k) ≠ 0 := by
    have value := Decimal.toNat_digit small
    constructor <;> intro same <;> rw [same] at value
    · have blank : (32 : UInt8).toNat = 32 := rfl
      omega
    · have zero : (0 : UInt8).toNat = 0 := rfl
      omega
  intro c member
  simp only [pairText, List.mem_cons, List.not_mem_nil, or_false] at member
  rcases member with rfl | rfl
  · exact digit (by omega)
  · exact digit (by omega)

theorem yearText_word {year : Nat} (bound : year < 10000) : Word (yearText year) :=
  (pairText_word (by omega)).append (pairText_word (by omega))

theorem dayText_word (padded : Bool) {day : Nat} (bound : day < 100) : Word (dayText padded day) := by
  rw [dayText]
  split
  · rename_i short
    have pair := pairText_word bound
    intro c member
    apply pair c
    rw [List.mem_singleton.mp member, pairText, Nat.mod_eq_of_lt short.1]
    exact List.mem_cons_of_mem _ (List.mem_singleton.mpr rfl)
  · exact pairText_word bound

theorem monthWord_word (month : Nat) : Word (monthWord month) := by
  rw [monthWord.eq_def]
  split <;> simp [Word]

theorem timeText_word (m : Moment) : Word (timeText m) := by
  have hour := m.hour_lt
  have minute := m.minute_lt
  have second := m.second_lt
  have colon : Word [58] := by simp [Word]
  exact (pairText_word (by omega)).append
    (colon.append ((pairText_word (by omega)).append (colon.append (pairText_word (by omega)))))

end Words

section Lengths

theorem skipTimeSep_length {date rest : List UInt8} (skipped : skipTimeSep date = some rest) :
    rest.length < date.length := by
  cases date with
  | nil => cases skipped
  | cons c later =>
      rw [skipTimeSep] at skipped
      split at skipped
      · rw [Option.some.injEq] at skipped
        have shorter := (List.dropWhile_sublist isTimeSep (l := later)).length_le
        rw [← skipped, List.length_cons]
        omega
      · cases skipped

theorem skipWeekDay_length {date rest : List UInt8} (skipped : skipWeekDay date = some rest) :
    rest.length < date.length := by
  induction date with
  | nil => cases skipped
  | cons c later ih =>
      rw [skipWeekDay] at skipped
      split at skipped
      · exact skipTimeSep_length skipped
      · split at skipped
        · cases skipped
        · have shorter := ih skipped
          rw [List.length_cons]
          omega

theorem parseDay_length (date : List UInt8) : (parseDay date).2.length ≤ date.length := by
  fun_cases parseDay date <;> simp_all
  omega

theorem parseMonth_length (date behind : List UInt8) : (parseMonth date behind).2.length ≤ date.length := by
  fun_cases parseMonth date behind <;> simp_all

theorem shortYear_length (d0 d1 : UInt8) (rest : List UInt8) : (shortYear d0 d1 rest).2.length ≤ rest.length + 2 := by
  rw [shortYear]
  split
  · exact Nat.le_add_right _ _
  · exact Nat.le_refl _

theorem parseYear_length (date : List UInt8) : (parseYear date).2.length ≤ date.length := by
  rw [parseYear.eq_def]
  split
  · split
    · split
      · split
        · simp only [List.length_cons]
          omega
        · exact shortYear_length _ _ _
      · exact shortYear_length _ _ _
    · exact Nat.le_refl _
  · exact Nat.le_refl _

theorem checkTime_rest {tm after : Tm} {text rest : List UInt8} (checked : checkTime tm text = some (after, rest)) :
    rest = text := by
  rw [checkTime] at checked
  split at checked
  · exact (Prod.mk.inj (Option.some.inj checked)).2.symm
  · cases checked

theorem parseSeconds_length {tm after : Tm} {text rest : List UInt8}
    (parsed : parseSeconds tm text = some (after, rest)) : rest.length ≤ text.length := by
  rw [parseSeconds.eq_def] at parsed
  split at parsed
  · split at parsed
    · split at parsed
      · cases parsed
      · split at parsed
        · rw [checkTime_rest parsed]
          simp only [List.length_cons]
          omega
        · cases parsed
    · split at parsed
      · split at parsed
        · rw [checkTime_rest parsed]
          simp only [List.length_cons]
          omega
        · cases parsed
      · rw [checkTime_rest parsed]
  · rw [checkTime_rest parsed]

theorem parseTime_length {tm after : Tm} {text rest : List UInt8}
    (parsed : parseTime tm text = some (after, rest)) : rest.length ≤ text.length := by
  rw [parseTime.eq_def] at parsed
  split at parsed
  · split at parsed
    · have shorter := parseSeconds_length parsed
      simp only [List.length_cons]
      omega
    · cases parsed
  · cases parsed

theorem parseRfcDate_length {date behind rest : List UInt8} {tm : Tm}
    (parsed : parseRfcDate date behind = some (tm, rest)) : rest.length ≤ date.length := by
  rw [parseRfcDate] at parsed
  dsimp only at parsed
  split at parsed
  · cases parsed
  · simp only [Option.bind_eq_bind, Option.bind_eq_some_iff] at parsed
    obtain ⟨afterDay, day, parsed⟩ := parsed
    split at parsed
    · cases parsed
    · obtain ⟨afterMonth, month, parsed⟩ := Option.bind_eq_some_iff.mp parsed
      split at parsed
      · cases parsed
      · obtain ⟨afterYear, year, parsed⟩ := Option.bind_eq_some_iff.mp parsed
        have h1 := parseDay_length date
        have h2 := skipTimeSep_length day
        have h3 := parseMonth_length afterDay behind
        have h4 := skipTimeSep_length month
        have h5 := parseYear_length afterMonth
        have h6 := skipTimeSep_length year
        have h7 := parseTime_length parsed
        omega

theorem parseAsctimeDate_length {date behind rest : List UInt8} {tm : Tm}
    (parsed : parseAsctimeDate date behind = some (tm, rest)) : rest.length ≤ date.length := by
  rw [parseAsctimeDate] at parsed
  dsimp only at parsed
  split at parsed
  · cases parsed
  · simp only [Option.bind_eq_bind, Option.bind_eq_some_iff] at parsed
    obtain ⟨afterMonth, month, parsed⟩ := parsed
    split at parsed
    · cases parsed
    · obtain ⟨afterDay, day, ⟨timed, text⟩, time, afterTime, separated, parsed⟩ := by
        simpa only [Option.bind_eq_some_iff] using parsed
      have h1 := parseMonth_length date behind
      have h2 := skipTimeSep_length month
      have h3 := parseDay_length afterMonth
      have h4 := skipTimeSep_length day
      have h5 : text.length ≤ afterDay.length := parseTime_length time
      have h6 : afterTime.length < text.length := skipTimeSep_length separated
      have h7 := parseYear_length afterTime
      split at parsed
      · cases parsed
      · have left := (Prod.mk.inj (Option.some.inj parsed)).2
        rw [← left]
        omega

theorem parseDate_length {date behind rest : List UInt8} {time : Int}
    (parsed : parseDate date behind = some (time, rest)) : rest.length ≤ date.length := by
  simp only [parseDate, Option.map_eq_some_iff] at parsed
  obtain ⟨⟨tm, left⟩, parsed, same⟩ := parsed
  rw [← (Prod.mk.inj same).2]
  split at parsed
  · exact parseRfcDate_length parsed
  · exact parseAsctimeDate_length parsed

end Lengths

section Forms

def Covers (form : List UInt8) (ending : Option Nat) : Prop := ∀ size, ending = some size → form.length ≤ size

theorem covers_none (form : List UInt8) : Covers form none := by
  intro size ending
  cases ending

/-- `parse_date` gives the time and moves the position over `size` bytes when it is to. -/
def Reads (text : List UInt8) (ending : Option Nat) (time : Int) (size : Nat) : Prop :=
  ∀ updatePos, parseDateAt text ending updatePos true = (time, if updatePos then size else 0)

theorem parseDateAt_form {form : List UInt8} (more : List UInt8) {ending : Option Nat} (covers : Covers form ending) :
    ∃ later behind, ∀ updatePos, parseDateAt (form ++ more) ending updatePos true =
      match (skipWeekDay (form ++ later)).bind (parseDate · behind) with
      | none => (0, 0)
      | some (time, rest) => (time, if updatePos then (form ++ later).length - rest.length else 0) := by
  cases ending with
  | none =>
      refine ⟨more ++ [0, 0, 0], [], fun updatePos => ?_⟩
      rw [← List.append_assoc]
      rfl
  | some size =>
      refine ⟨more.take (size - form.length), (form ++ more).drop size, fun updatePos => ?_⟩
      have cut : (form ++ more).take size = form ++ more.take (size - form.length) := by
        rw [List.take_append, List.take_of_length_le (covers size rfl)]
      rw [← cut]
      rfl

theorem reads_none {text : List UInt8} {ending : Option Nat} {time : Int} {size : Nat} (reads : Reads text ending time size)
    (failed : ∀ updatePos, parseDateAt text ending updatePos true = (0, 0)) : time = 0 := by
  have result := reads false
  rw [failed false] at result
  exact (Prod.mk.inj result).1.symm

theorem skipWeekDay_spacing (s : Spacing) (blank : 32 ∈ (s.gaps 0).text) {rest : List UInt8} {kind : UInt8 → Bool}
    (starts : Starts kind rest) (plain : ∀ c, kind c = true → isTimeSep c = false) :
    skipWeekDay (s.weekDay ++ ((s.gaps 0).text ++ rest)) = some rest := by
  rw [skipWeekDay_word s.word]
  exact skipWeekDay_seps (s.gaps 0).separates blank starts plain

/-- A gap with a blank has the date looked for behind it, and any other is skipped as well. -/
theorem astray_gap (g : Gap) {rest behind : List UInt8} {result : Int × List UInt8} {kind : UInt8 → Bool}
    (starts : Starts kind rest) (plain : ∀ c, kind c = true → isTimeSep c = false)
    (fails : parseDate rest behind = none)
    (found : (skipWeekDay (g.text ++ rest)).bind (parseDate · behind) = some result) :
    (skipWeekDay rest).bind (parseDate · behind) = some result := by
  by_cases blank : 32 ∈ g.text
  · rw [skipWeekDay_seps g.separates blank starts plain, Option.bind_some, fails] at found
    cases found
  · rwa [skipWeekDay_word (g.word blank)] at found

theorem rfcForm_astray (m : Moment) (s : Spacing) {year : List UInt8} (rest behind : List UInt8)
    (bound : m.year < 10000) (shape : year = yearText m.year ∨ year = pairText (m.year % 100))
    (dashes : 32 ∉ (s.gaps 0).text) :
    (skipWeekDay (rfcForm year m s ++ (gmt ++ rest))).bind (parseDate · behind) = none := by
  have digits : Starts isdigit year := by
    rcases shape with rfl | rfl
    · exact yearText_starts bound
    · exact pairText_starts (by omega)
  have numbers : Word year := by
    rcases shape with rfl | rfl
    · exact yearText_word bound
    · exact pairText_word (by omega)
  have toYear (rest : List UInt8) :
      parseDate (year ++ ((s.gaps 3).text ++ (timeText m ++ rest))) behind = none := by
    rcases shape with rfl | rfl
    · exact parseDate_year bound _ behind
    · exact parseDate_shortYear (by omega) _ m rest behind
  apply Option.eq_none_iff_forall_ne_some.mpr
  intro result found
  simp only [rfcForm, List.append_assoc] at found
  rw [skipWeekDay_word s.word, skipWeekDay_word ((s.gaps 0).word dashes),
    skipWeekDay_word (dayText_word s.padded (day_small m))] at found
  have atMonth := astray_gap (s.gaps 1) ((monthWord_starts m.month).append _) (fun _ => letter_noSep)
    (parseDate_monthYear m (s.gaps 2) (s.gaps 3) rest behind shape bound) found
  rw [skipWeekDay_word (monthWord_word m.month)] at atMonth
  have atYear := astray_gap (s.gaps 2) (digits.append _) (fun _ => digit_noSep) (toYear _) atMonth
  rw [skipWeekDay_word numbers] at atYear
  have atTime := astray_gap (s.gaps 3) ((timeText_starts m).append _) (fun _ => digit_noSep)
    (parseDate_time m _ behind) atYear
  have zone : skipWeekDay (gmt ++ rest) = some (71 :: 77 :: 84 :: rest) := by
    simp [gmt, skipWeekDay, skipTimeSep, isTimeSep]
  rw [skipWeekDay_word (timeText_word m), zone, Option.bind_some, parseDate_gmt] at atTime
  cases atTime

theorem parseDate_dayTime (m : Moment) (padded : Bool) (g : Gap) (rest behind : List UInt8) :
    parseDate (dayText padded m.day ++ (g.text ++ (timeText m ++ rest))) behind = none := by
  rw [parseDate_digits ((dayText_starts padded (day_small m)).append _),
    parseRfcDate_month padded (day_small m) g ((timeText_starts m).append _)]
  rfl

theorem asctime_astray (m : Moment) (s : Spacing) {later behind rest : List UInt8} {time : Int}
    (bound : m.year < 10000) (dashes : 32 ∉ (s.gaps 0).text)
    (found : (skipWeekDay (asctime m s ++ later)).bind (parseDate · behind) = some (time, rest)) :
    rest.length < later.length := by
  simp only [asctime, List.append_assoc] at found
  rw [skipWeekDay_word s.word, skipWeekDay_word ((s.gaps 0).word dashes),
    skipWeekDay_word (monthWord_word m.month)] at found
  have atDay := astray_gap (s.gaps 1) ((dayText_starts s.padded (day_small m)).append _) (fun _ => digit_noSep)
    (parseDate_dayTime m s.padded (s.gaps 2) _ behind) found
  rw [skipWeekDay_word (dayText_word s.padded (day_small m))] at atDay
  have atTime := astray_gap (s.gaps 2) ((timeText_starts m).append _) (fun _ => digit_noSep)
    (parseDate_time m _ behind) atDay
  rw [skipWeekDay_word (timeText_word m)] at atTime
  have atYear := astray_gap (s.gaps 3) ((yearText_starts bound).append _) (fun _ => digit_noSep)
    (parseDate_year bound later behind) atTime
  rw [skipWeekDay_word (yearText_word bound)] at atYear
  obtain ⟨date, skipped, parsed⟩ := Option.bind_eq_some_iff.mp atYear
  have first := skipWeekDay_length skipped
  have second := parseDate_length parsed
  omega

theorem rfcForm_read (m : Moment) (s : Spacing) {year : List UInt8} (rest behind : List UInt8)
    (digits : Starts isdigit year) (start : 1900 ≤ m.year)
    (read : ∀ rest, NoDigit rest → parseYear (year ++ rest) = ((m.year : Int) - 1900, rest))
    (blank : 32 ∈ (s.gaps 0).text) :
    (skipWeekDay (rfcForm year m s ++ (gmt ++ rest))).bind (parseDate · behind) =
      some (myTimegm (ofMoment m 0), gmt ++ rest) := by
  have days : Starts isdigit (dayText s.padded m.day) := dayText_starts s.padded (day_small m)
  simp only [rfcForm, List.append_assoc]
  rw [skipWeekDay_spacing s blank (days.append _) fun _ => digit_noSep, Option.bind_some,
    parseDate_digits (days.append _)]
  rw [gmt, List.cons_append, parseRfcDate_form m s.padded (s.gaps 1) (s.gaps 2) (s.gaps 3) behind digits
    (read _ ((s.gaps 3).starts.append _).noDigit) (by omega)]
  rfl

theorem asctime_read (m : Moment) (s : Spacing) (rest behind : List UInt8) (bound : m.year < 10000)
    (blank : 32 ∈ (s.gaps 0).text) :
    (skipWeekDay (asctime m s ++ rest)).bind (parseDate · behind) = some (myTimegm (ofMoment m 0), rest) := by
  have month : Starts isLetter (monthWord m.month) := monthWord_starts m.month
  simp only [asctime, List.append_assoc]
  rw [skipWeekDay_spacing s blank (month.append _) fun _ => letter_noSep, Option.bind_some,
    parseDate_letters (month.append _),
    parseAsctimeDate_form m s.padded (s.gaps 1) (s.gaps 2) (s.gaps 3) rest behind bound]
  rfl

end Forms

section Agreement

theorem reads_rfcForm (m : Moment) (s : Spacing) {year more : List UInt8} {ending : Option Nat}
    (covers : Covers (rfcForm year m s ++ gmt) ending) (digits : Starts isdigit year) (start : 1900 ≤ m.year)
    (read : ∀ rest, NoDigit rest → parseYear (year ++ rest) = ((m.year : Int) - 1900, rest))
    (blank : 32 ∈ (s.gaps 0).text) :
    Reads (rfcForm year m s ++ gmt ++ more) ending (myTimegm (ofMoment m 0)) (rfcForm year m s).length := by
  obtain ⟨later, behind, parsed⟩ := parseDateAt_form more covers
  intro updatePos
  have found := rfcForm_read m s later behind digits start read blank
  rw [← List.append_assoc] at found
  rw [parsed, found]
  simp only [List.length_append, Prod.mk.injEq, true_and]
  split <;> omega

theorem reads_asctime (m : Moment) (s : Spacing) {more : List UInt8} {ending : Option Nat}
    (covers : Covers (asctime m s) ending) (bound : m.year < 10000) (blank : 32 ∈ (s.gaps 0).text) :
    Reads (asctime m s ++ more) ending (myTimegm (ofMoment m 0)) (asctime m s).length := by
  obtain ⟨later, behind, parsed⟩ := parseDateAt_form more covers
  intro updatePos
  rw [parsed, asctime_read m s later behind bound blank]
  simp only [List.length_append, Prod.mk.injEq, true_and]
  split <;> omega

theorem reads_fails {form more : List UInt8} {ending : Option Nat} {time : Int} {size : Nat}
    (covers : Covers form ending) (reads : Reads (form ++ more) ending time size)
    (fails : ∀ later behind, (skipWeekDay (form ++ later)).bind (parseDate · behind) = none) : time = 0 := by
  obtain ⟨later, behind, parsed⟩ := parseDateAt_form more covers
  apply reads_none reads
  intro updatePos
  rw [parsed, fails]

theorem reads_rfc_blank {m : Moment} {s : Spacing} {year more : List UInt8} {ending : Option Nat} {time : Int}
    {size : Nat} (covers : Covers (rfcForm year m s ++ gmt) ending) (bound : m.year < 10000)
    (shape : year = yearText m.year ∨ year = pairText (m.year % 100))
    (reads : Reads (rfcForm year m s ++ gmt ++ more) ending time size) (nonzero : time ≠ 0) :
    32 ∈ (s.gaps 0).text := by
  by_contra dashes
  apply nonzero
  apply reads_fails covers reads
  intro later behind
  rw [List.append_assoc]
  exact rfcForm_astray m s later behind bound shape dashes

theorem reads_asctime_blank {m : Moment} {s : Spacing} {more : List UInt8} {ending : Option Nat} {time : Int}
    (covers : Covers (asctime m s) ending) (bound : m.year < 10000)
    (reads : Reads (asctime m s ++ more) ending time (asctime m s).length) (nonzero : time ≠ 0) :
    32 ∈ (s.gaps 0).text := by
  by_contra dashes
  obtain ⟨later, behind, parsed⟩ := parseDateAt_form more covers
  have result := reads true
  rw [parsed] at result
  cases found : (skipWeekDay (asctime m s ++ later)).bind (parseDate · behind) with
  | none =>
      rw [found] at result
      exact nonzero (Prod.mk.inj result).1.symm
  | some date =>
      -- The position would have to move beyond the form.
      have beyond := asctime_astray m s bound dashes found
      rw [found] at result
      have position := (Prod.mk.inj result).2
      simp only [List.length_append, if_true] at position
      omega

theorem reads_rfc850_year {m : Moment} {s : Spacing} {more : List UInt8} {ending : Option Nat} {time : Int}
    {size : Nat} (covers : Covers (rfc850 m s ++ gmt) ending) (blank : 32 ∈ (s.gaps 0).text)
    (reads : Reads (rfc850 m s ++ gmt ++ more) ending time size) (nonzero : time ≠ 0) : m.year % 100 < 70 := by
  by_contra late
  apply nonzero
  apply reads_fails covers reads
  intro later behind
  have days : Starts isdigit (dayText s.padded m.day) := dayText_starts s.padded (day_small m)
  have year : Starts isdigit (pairText (m.year % 100)) := pairText_starts (by omega)
  simp only [rfc850, rfcForm, List.append_assoc]
  rw [skipWeekDay_spacing s blank (days.append _) fun _ => digit_noSep, Option.bind_some,
    parseDate_digits (days.append _)]
  have stays := parseYear_pair (by omega : m.year % 100 < 100)
    (((s.gaps 3).starts.append (timeText m ++ (gmt ++ later))).noDigit)
  rw [if_neg late] at stays
  rw [parseRfcDate_stuck m s.padded (s.gaps 1) (s.gaps 2) behind year stays]
  rfl

/-- The three forms, each with its own spacing, text behind it and end, give one time that is no
failure, and the position moves over the date. -/
def FormsAgree (m : Moment) (spacings : Fin 3 → Spacing) (more : Fin 3 → List UInt8)
    (endings : Fin 3 → Option Nat) : Prop :=
  ∃ time, time ≠ 0 ∧
    Reads (rfc1123 m (spacings 0) ++ gmt ++ more 0) (endings 0) time (rfc1123 m (spacings 0)).length ∧
    Reads (rfc850 m (spacings 1) ++ gmt ++ more 1) (endings 1) time (rfc850 m (spacings 1)).length ∧
    Reads (asctime m (spacings 2) ++ more 2) (endings 2) time (asctime m (spacings 2)).length

def AllCovered (m : Moment) (spacings : Fin 3 → Spacing) (endings : Fin 3 → Option Nat) : Prop :=
  Covers (rfc1123 m (spacings 0) ++ gmt) (endings 0) ∧ Covers (rfc850 m (spacings 1) ++ gmt) (endings 1) ∧
    Covers (asctime m (spacings 2)) (endings 2)

theorem epochMonth_lt : 0 < 12 := by decide

theorem epochDay_le : 1 ≤ monthDays 1970 0 := by decide

theorem epochHour_lt : 0 < 24 := by decide

theorem epochMinute_lt : 0 < 60 := by decide

theorem epochYear_ge : 1970 ≤ 1970 := Nat.le_refl 1970

theorem epochDay_pos : 1 ≤ 1 := Nat.le_refl 1

def epoch : Moment where
  year := 1970
  month := 0
  day := 1
  hour := 0
  minute := 0
  second := 0
  year_ge := epochYear_ge
  month_lt := epochMonth_lt
  day_pos := epochDay_pos
  day_le := epochDay_le
  hour_lt := epochHour_lt
  minute_lt := epochMinute_lt
  second_lt := epochMinute_lt

theorem myTimegm_ne_zero (m : Moment) (isdst : Int) (start : 2000 ≤ m.year) (bound : m.year ≤ 2099) :
    myTimegm (ofMoment m isdst) ≠ 0 := by
  have later : epoch.Before m := Or.inl (Nat.lt_of_lt_of_le (by decide) start)
  have order := Moment.seconds_lt later
  have most := seconds_bound m bound
  rw [myTimegm_ofMoment m isdst bound]
  split <;> omega

theorem formsAgree_iff (m : Moment) (spacings : Fin 3 → Spacing) (more : Fin 3 → List UInt8)
    (endings : Fin 3 → Option Nat) (until2069 : m.year ≤ 2069) (covered : AllCovered m spacings endings) :
    FormsAgree m spacings more endings ↔ 2000 ≤ m.year ∧ ∀ form, 32 ∈ ((spacings form).gaps 0).text := by
  have start := m.year_ge
  obtain ⟨covers0, covers1, covers2⟩ := covered
  constructor
  · rintro ⟨time, nonzero, first, second, third⟩
    have blank0 := reads_rfc_blank covers0 (by omega) (.inl rfl) first nonzero
    have blank1 := reads_rfc_blank covers1 (by omega) (.inr rfl) second nonzero
    have blank2 := reads_asctime_blank covers2 (by omega) third nonzero
    have year := reads_rfc850_year covers1 blank1 second nonzero
    refine ⟨by omega, fun form => ?_⟩
    match form with
    | 0 => exact blank0
    | 1 => exact blank1
    | 2 => exact blank2
  · rintro ⟨century, blank⟩
    have long (rest : List UInt8) (_ : NoDigit rest) :
        parseYear (yearText m.year ++ rest) = ((m.year : Int) - 1900, rest) :=
      parseYear_text (by omega) rest
    have short (rest : List UInt8) (stop : NoDigit rest) :
        parseYear (pairText (m.year % 100) ++ rest) = ((m.year : Int) - 1900, rest) := by
      rw [parseYear_pair (by omega) stop, if_pos (by omega)]
      congr 1
      omega
    refine ⟨myTimegm (ofMoment m 0), myTimegm_ne_zero m 0 century (by omega), ?_, ?_, ?_⟩
    · exact reads_rfcForm m (spacings 0) covers0 (yearText_starts (by omega)) (by omega) long (blank 0)
    · exact reads_rfcForm m (spacings 1) covers1 (pairText_starts (by omega)) (by omega) short (blank 1)
    · exact reads_asctime m (spacings 2) covers2 (by omega) (blank 2)

def oneBlank : Gap where
  text := [32]
  written := List.cons_ne_nil 32 []
  separates := by simp [isTimeSep]

def usualSpacing : Spacing where
  weekDay := [83, 117, 110, 44]
  word := by simp [Word]
  gaps := fun _ => oneBlank
  padded := true

def november (year : Nat) (start : 1970 ≤ year) : Moment where
  year := year
  month := 10
  day := 6
  hour := 8
  minute := 49
  second := 37
  year_ge := start
  month_lt := by decide
  day_pos := by decide
  day_le := by rw [monthDays]; decide
  hour_lt := by decide
  minute_lt := by decide
  second_lt := by decide

theorem formsAgree_2005 : FormsAgree (november 2005 (by decide)) (fun _ => usualSpacing) (fun _ => []) (fun _ => none) :=
  (formsAgree_iff (november 2005 (by decide)) (fun _ => usualSpacing) (fun _ => []) (fun _ => none) (by decide)
    ⟨covers_none _, covers_none _, covers_none _⟩).mpr ⟨by decide, by decide⟩

/-- `Sun, 06 Nov 94 08:49:37 GMT` is no date. -/
theorem formsAgree_1994 :
    parseDateAt (rfc1123 (november 1994 (by decide)) usualSpacing ++ gmt) none true true = (784111777, 25) ∧
    parseDateAt (rfc850 (november 1994 (by decide)) usualSpacing ++ gmt) none true true = (0, 0) ∧
    parseDateAt (asctime (november 1994 (by decide)) usualSpacing) none true true = (784111777, 25) ∧
    ¬ FormsAgree (november 1994 (by decide)) (fun _ => usualSpacing) (fun _ => []) (fun _ => none) := by
  refine ⟨by decide +kernel, by decide +kernel, by decide +kernel, ?_⟩
  rintro ⟨time, nonzero, _, second, _⟩
  have result := second true
  have fails : parseDateAt (rfc850 (november 1994 (by decide)) usualSpacing ++ gmt ++ []) none true true =
      (0, 0) := by decide +kernel
  dsimp only at result
  rw [fails] at result
  exact nonzero (Prod.mk.inj result).1.symm

end Agreement

end KcnTools.Date
