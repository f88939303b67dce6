import KcnTools.Ftp.LineParse

/-!
The parsers of dates read a line through positions here and are functions of a text in `Date`. Both
are the code of `date.c`: wherever the positions stay in the line, they find the same and stop at the
same place.
-/

namespace KcnTools.FtpLine

open CheckedRead CheckedRead.Read
open Date (Tm isdigit digit month2num halfDayHour isTimeSep clearTm shortYear)

/-- The text in front of `last` from a position on. -/
def textFrom (line : List UInt8) (last pos : Nat) : List UInt8 := (line.take last).drop pos

/-- The same was found, and the rest begins at the position. -/
def Stands (line : List UInt8) (last : Nat) {α : Type} (here : α × Nat) (found : α × List UInt8) : Prop :=
  here.1 = found.1 ∧ textFrom line last here.2 = found.2

section Text

variable {line : List UInt8} {last pos : Nat} {c : UInt8} {rest : List UInt8}

theorem textFrom_add (pos count : Nat) : textFrom line last (pos + count) = (textFrom line last pos).drop count := by
  rw [textFrom, textFrom, List.drop_drop]

theorem textFrom_next (text : textFrom line last pos = c :: rest) : textFrom line last (pos + 1) = rest := by
  rw [textFrom_add, text, List.drop_one, List.tail_cons]

theorem textFrom_element (text : textFrom line last pos = c :: rest) : element line pos = value c := by
  have here : (line.take last)[pos]? = some c := by rw [← List.head?_drop, ← textFrom, text, List.head?_cons]
  rw [List.getElem?_take] at here
  split at here
  · rw [element, here]
  · cases here

theorem textFrom_length (inside : last ≤ line.length) (pos : Nat) : (textFrom line last pos).length = last - pos := by
  rw [textFrom, List.length_drop, List.length_take, Nat.min_eq_left inside]

theorem textFrom_behind (inside : last ≤ line.length) (near : pos ≤ last) :
    textFrom line last pos ++ line.drop last = line.drop pos := by
  have length : pos ≤ (line.take last).length := by
    rw [List.length_take, Nat.min_eq_left inside]
    exact near
  rw [textFrom, ← List.drop_append_of_le_length length, List.take_append_drop]

end Text

section Agreement

variable {line : List UInt8} {last : Nat}

theorem expect_agrees {α β : Type} {same : α → β → Prop} {p : UInt8 → Bool} {pos : Nat} {c : UInt8}
    {k : UInt8 → Read α} {q : Option β} (here : element line pos = value c) (no : p c = false → q = none)
    (yes : p c = true → (k c).Agrees same q) : (expect p line pos >>= k).Agrees same q := by
  rw [expect, here, value_bind]
  cases test : p c with
  | true => exact yes test
  | false => exact no test

theorem shortYear_agrees {d0 d1 : UInt8} {rest : List UInt8} {date : Nat}
    (text : textFrom line last date = d0 :: d1 :: rest) :
    Agrees (Stands line last)
      (if digit d0 * 10 + digit d1 < 70 then value (digit d0 * 10 + digit d1 + 100, date + 2)
        else value (digit d0 * 10 + digit d1, date))
      (some (shortYear d0 d1 rest)) := by
  rw [shortYear]
  split
  · exact ⟨_, rfl, rfl, by rw [textFrom_add, text]; rfl⟩
  · exact ⟨_, rfl, rfl, text⟩

theorem checkTime_agrees (tm : Tm) (time : Nat) :
    (checkTime tm time).Agrees (Stands line last) (Date.checkTime tm (textFrom line last time)) := by
  rw [checkTime, Date.checkTime]
  exact Agrees.ite (fun _ => ⟨_, rfl, rfl, rfl⟩) fun _ => rfl

variable (inside : last ≤ line.length)

include inside

theorem parseYear_agrees (date : Nat) :
    (parseYear line last date).Agrees (Stands line last) (some (Date.parseYear (textFrom line last date))) := by
  have length := textFrom_length inside date
  rcases text : textFrom line last date with _ | ⟨d0, _ | ⟨d1, rest⟩⟩
  · rw [text, List.length_nil] at length
    rw [parseYear, if_pos (by omega)]
    exact ⟨_, rfl, rfl, text⟩
  · rw [text, List.length_singleton] at length
    rw [parseYear, if_pos (by omega)]
    exact ⟨_, rfl, rfl, text⟩
  · rw [text, List.length_cons, List.length_cons] at length
    have behind := textFrom_next text
    rw [parseYear, if_neg (by omega), textFrom_element text, value_bind, textFrom_element behind, Date.parseYear.eq_def]
    dsimp only
    by_cases first : isdigit d0 = true
    · by_cases second : isdigit d1 = true
      · have digits : (isdigit d0 && isdigit d1) = true := by rw [first, second]; rfl
        rw [if_neg (not_not.mpr first), value_bind, if_neg (not_not.mpr second), if_pos digits]
        have third := textFrom_next behind
        rcases rest with _ | ⟨d2, _ | ⟨d3, later⟩⟩
        · rw [laterDigits, if_neg (by rw [List.length_nil] at length; omega), value_bind]
          exact shortYear_agrees text
        · rw [laterDigits, if_neg (by rw [List.length_singleton] at length; omega), value_bind]
          exact shortYear_agrees text
        · rw [List.length_cons, List.length_cons] at length
          rw [laterDigits, if_pos (by omega), textFrom_element third, value_bind,
            textFrom_element (textFrom_next third)]
          by_cases both : isdigit d2 = true ∧ isdigit d3 = true
          · rw [if_neg (not_not.mpr both.1), value_bind, if_neg (not_not.mpr both.2), value_bind]
            dsimp only
            have digits : (isdigit d2 && isdigit d3) = true := by rw [both.1, both.2]; rfl
            rw [if_pos digits]
            exact ⟨_, rfl, rfl, textFrom_next (textFrom_next third)⟩
          · dsimp only
            have other : ¬ (isdigit d2 && isdigit d3) = true := by rwa [Bool.and_eq_true]
            rw [if_neg other]
            by_cases d2Digit : isdigit d2 = true
            · rw [if_neg (not_not.mpr d2Digit), value_bind, if_pos fun d3Digit => both ⟨d2Digit, d3Digit⟩, value_bind]
              exact shortYear_agrees text
            · rw [if_pos d2Digit, value_bind]
              exact shortYear_agrees text
      · have other : ¬ (isdigit d0 && isdigit d1) = true := by simp [second]
        rw [if_neg (not_not.mpr first), value_bind, if_pos second, if_neg other]
        exact ⟨_, rfl, rfl, text⟩
    · rw [if_pos first, if_neg (by simp [first])]
      exact ⟨_, rfl, rfl, text⟩

theorem parseMonth_agrees {month : Nat} :
    (parseMonth line last month).Agrees (Stands line last)
      (some (Date.parseMonth (textFrom line last month) (line.drop last))) := by
  have length := textFrom_length inside month
  have stays : Agrees (Stands line last) (value (-1, month)) (some ((-1 : Int), textFrom line last month)) :=
    ⟨_, rfl, rfl, rfl⟩
  rw [parseMonth, Date.parseMonth, length]
  split
  next short =>
    rw [if_pos (by omega)]
    exact stays
  next long =>
    rw [if_neg (by omega)]
    obtain ⟨a, more, text⟩ := List.exists_cons_of_length_pos (by omega : 0 < (textFrom line last month).length)
    have behind := textFrom_next text
    obtain ⟨b, rest, second⟩ := List.exists_cons_of_length_pos
      (by rw [textFrom_length inside]; omega : 0 < (textFrom line last (month + 1)).length)
    obtain rfl : more = b :: rest := behind.symm.trans second
    have third := textFrom_behind inside (by omega : month + 2 ≤ last)
    rw [textFrom_next second] at third
    rw [textFrom_element text, value_bind, textFrom_element second, value_bind]
    rw [text] at stays ⊢
    rw [List.cons_append, List.cons_append, third]
    cases left : line.drop (month + 2) with
    | nil =>
        have outside : element line (month + 2) = beyond := by
          rw [element, List.getElem?_eq_none (List.drop_eq_nil_iff.mp left)]
        rw [outside]
        split
        next => exact stays
        next =>
          split
          next => exact stays
          next => trivial
    | cons c tail =>
        rw [element_drop left, value_bind]
        dsimp only
        by_cases none : a = 0 ∨ b = 0 ∨ c = 0
        · rw [if_pos none]
          split
          next => exact stays
          next first =>
            split
            next => exact stays
            next second =>
              rw [if_pos ((none.resolve_left first).resolve_left second)]
              exact stays
        · obtain ⟨first, second, third⟩ : a ≠ 0 ∧ b ≠ 0 ∧ c ≠ 0 := by simpa using none
          rw [if_neg none, if_neg first, if_neg second, if_neg third]
          split
          next unknown =>
            rw [unknown]
            exact stays
          next known => exact ⟨_, rfl, rfl, by rw [textFrom_add, text]⟩

theorem parseDay_agrees (date : Nat) :
    (parseDay line last date).Agrees (Stands line last) (some (Date.parseDay (textFrom line last date))) := by
  have length := textFrom_length inside date
  cases text : textFrom line last date with
  | nil =>
      rw [text, List.length_nil] at length
      rw [parseDay, if_pos (by omega)]
      exact ⟨_, rfl, rfl, text⟩
  | cons d0 rest =>
      rw [text, List.length_cons] at length
      have behind := textFrom_next text
      rw [parseDay, if_neg (by omega), textFrom_element text, value_bind, Date.parseDay.eq_def]
      dsimp only
      by_cases first : isdigit d0 = true
      · rw [if_neg (not_not.mpr first), if_pos first]
        cases rest with
        | nil =>
            rw [List.length_nil] at length
            rw [if_pos (by omega)]
            exact ⟨_, rfl, rfl, behind⟩
        | cons d1 later =>
            rw [List.length_cons] at length
            rw [if_neg (by omega), textFrom_element behind, value_bind]
            dsimp only
            by_cases second : isdigit d1 = true
            · rw [if_neg (not_not.mpr second), if_pos second]
              exact ⟨_, rfl, rfl, textFrom_next behind⟩
            · rw [if_pos second, if_neg second]
              exact ⟨_, rfl, rfl, behind⟩
      · rw [if_pos first, if_neg first]
        exact ⟨_, rfl, rfl, text⟩

theorem parseSeconds_agrees (tm : Tm) (date : Nat) :
    (parseSeconds line tm last date).Agrees (Stands line last) (Date.parseSeconds tm (textFrom line last date)) := by
  have length := textFrom_length inside date
  have plain : (checkTime tm date).Agrees (Stands line last) (Date.checkTime tm (textFrom line last date)) :=
    checkTime_agrees tm date
  rw [parseSeconds]
  rcases text : textFrom line last date with _ | ⟨c, _ | ⟨s1, _ | ⟨s2, rest⟩⟩⟩
  · rw [text] at length plain
    rw [if_pos (by rw [List.length_nil] at length; omega)]
    exact plain
  · rw [text] at length plain
    rw [if_pos (by rw [List.length_singleton] at length; omega)]
    exact plain
  · rw [text] at length plain
    rw [if_pos (by rw [List.length_cons, List.length_singleton] at length; omega)]
    exact plain
  · rw [text] at length plain
    rw [List.length_cons, List.length_cons, List.length_cons] at length
    have first := textFrom_next text
    have second := textFrom_next first
    have third := textFrom_next second
    rw [if_neg (by omega), textFrom_element text, value_bind, Date.parseSeconds]
    refine Agrees.ite (fun _ => ?_) fun _ => Agrees.ite (fun _ => ?_) fun _ => plain
    · cases rest with
      | nil =>
          rw [List.length_nil] at length
          rw [if_pos (by omega), if_pos rfl]
          exact rfl
      | cons c4 later =>
          rw [List.length_cons] at length
          rw [if_neg (by omega), if_neg (List.cons_ne_nil _ _)]
          refine expect_agrees (textFrom_element first) (fun no => if_neg (by simp [no])) fun s1Digit => ?_
          refine expect_agrees (textFrom_element second) (fun no => if_neg (by simp [no])) fun s2Digit => ?_
          rw [if_pos (by simp [s1Digit, s2Digit]), ← third]
          exact checkTime_agrees _ _
    · refine expect_agrees (textFrom_element first) (fun no => if_neg (by simpa using no)) fun m => ?_
      rw [if_pos (by simpa using m), ← second]
      exact checkTime_agrees _ _

theorem parseTime_agrees (tm : Tm) (date : Nat) :
    (parseTime line tm last date).Agrees (Stands line last) (Date.parseTime tm (textFrom line last date)) := by
  have length := textFrom_length inside date
  rw [parseTime]
  rcases text : textFrom line last date with _ | ⟨h1, _ | ⟨h2, _ | ⟨colon, _ | ⟨m1, _ | ⟨m2, rest⟩⟩⟩⟩⟩
  iterate 5
    rw [text] at length
    rw [if_pos (by simp only [List.length_cons, List.length_nil] at length; omega)]
    exact rfl
  rw [text] at length
  have first := textFrom_next text
  have second := textFrom_next first
  have third := textFrom_next second
  have fourth := textFrom_next third
  rw [if_neg (by simp only [List.length_cons] at length; omega), Date.parseTime]
  refine expect_agrees (textFrom_element text) (fun no => if_neg (by simp [no])) fun h1Digit => ?_
  refine expect_agrees (textFrom_element first) (fun no => if_neg (by simp [no])) fun h2Digit => ?_
  refine expect_agrees (textFrom_element second) (fun no => if_neg (by rw [no]; simp)) fun isColon => ?_
  refine expect_agrees (textFrom_element third) (fun no => if_neg (by simp [no])) fun m1Digit => ?_
  refine expect_agrees (textFrom_element fourth) (fun no => if_neg (by simp [no])) fun m2Digit => ?_
  rw [if_pos (by simp only [h1Digit, h2Digit, isColon, m1Digit, m2Digit, Bool.and_self]), ← textFrom_next fourth]
  exact parseSeconds_agrees inside _ _

theorem skipTimeSep_agrees (start : Nat) :
    (skipTimeSep line last start).Agrees (fun date rest => textFrom line last date = rest)
      (Date.skipTimeSep (textFrom line last start)) := by
  have length := textFrom_length inside start
  rw [skipTimeSep]
  cases text : textFrom line last start with
  | nil =>
      rw [text, List.length_nil] at length
      rw [← length, skipWhile, value_bind, if_pos rfl]
      exact rfl
  | cons c rest =>
      rw [text, List.length_cons] at length
      have taken : (line.drop start).take (last - start) = c :: rest := by rw [← List.drop_take, ← textFrom, text]
      rw [skipWhile_take isTimeSep (by omega), taken, value_bind, Date.skipTimeSep]
      by_cases sep : isTimeSep c = true
      · rw [if_pos sep, List.takeWhile_cons_of_pos sep, List.length_cons, if_neg (by omega)]
        refine ⟨_, rfl, ?_⟩
        show textFrom line last (start + ((rest.takeWhile isTimeSep).length + 1)) = rest.dropWhile isTimeSep
        rw [textFrom_add, text, List.drop_succ_cons]
        nth_rewrite 2 [← List.takeWhile_append_dropWhile (p := isTimeSep) (l := rest)]
        rw [List.drop_left]
      · rw [if_neg sep, List.takeWhile_cons_of_neg sep, List.length_nil, Nat.add_zero, if_pos rfl]
        exact rfl

theorem parseRfcDate_agrees (date : Nat) :
    (parseRfcDate line last date).Agrees (Stands line last)
      (Date.parseRfcDate (textFrom line last date) (line.drop last)) := by
  rw [parseRfcDate, Date.parseRfcDate]
  refine (parseDay_agrees inside date).bindSome ?_
  generalize Date.parseDay (textFrom line last date) = day
  rintro ⟨mday, date⟩ ⟨rfl, text⟩
  refine Agrees.ite (fun _ => rfl) fun _ => ?_
  rw [← text]
  refine (skipTimeSep_agrees inside date).bind ?_
  rintro date _ rfl
  refine (parseMonth_agrees inside).bindSome ?_
  generalize Date.parseMonth (textFrom line last date) (line.drop last) = month
  rintro ⟨mon, date⟩ ⟨rfl, text⟩
  refine Agrees.ite (fun _ => rfl) fun _ => ?_
  rw [← text]
  refine (skipTimeSep_agrees inside date).bind ?_
  rintro date _ rfl
  refine (parseYear_agrees inside date).bindSome ?_
  generalize Date.parseYear (textFrom line last date) = year
  rintro ⟨year, date⟩ ⟨rfl, text⟩
  refine Agrees.ite (fun _ => rfl) fun _ => ?_
  rw [← text]
  refine (skipTimeSep_agrees inside date).bind ?_
  rintro date _ rfl
  exact parseTime_agrees inside _ date

theorem parseAsctimeDate_agrees (date : Nat) :
    (parseAsctimeDate line last date).Agrees (Stands line last)
      (Date.parseAsctimeDate (textFrom line last date) (line.drop last)) := by
  rw [parseAsctimeDate, Date.parseAsctimeDate]
  refine (parseMonth_agrees inside).bindSome ?_
  generalize Date.parseMonth (textFrom line last date) (line.drop last) = month
  rintro ⟨mon, date⟩ ⟨rfl, text⟩
  refine Agrees.ite (fun _ => rfl) fun _ => ?_
  rw [← text]
  refine (skipTimeSep_agrees inside date).bind ?_
  rintro date _ rfl
  refine (parseDay_agrees inside date).bindSome ?_
  generalize Date.parseDay (textFrom line last date) = day
  rintro ⟨mday, date⟩ ⟨rfl, text⟩
  refine Agrees.ite (fun _ => rfl) fun _ => ?_
  rw [← text]
  refine (skipTimeSep_agrees inside date).bind ?_
  rintro date _ rfl
  refine (parseTime_agrees inside _ date).bind ?_
  rintro ⟨tm, date⟩ ⟨_, _⟩ ⟨rfl, rfl⟩
  refine (skipTimeSep_agrees inside date).bind ?_
  rintro date _ rfl
  refine (parseYear_agrees inside date).bindSome ?_
  generalize Date.parseYear (textFrom line last date) = year
  rintro ⟨year, date⟩ ⟨rfl, text⟩
  exact Agrees.ite (fun _ => rfl) fun _ => ⟨_, rfl, rfl, text⟩

/-- What a line gives as a date is the date of its text in front of `last`, with what is behind. -/
theorem parseDate_agrees {date : Nat} (near : date ≤ last) :
    (parseDate line last date).Agrees (Stands line last)
      (Date.parseDate (textFrom line last date) (line.drop last)) := by
  rw [parseDate, Date.parseDate, textFrom_behind inside near]
  cases left : line.drop date with
  | nil =>
      rw [element, List.getElem?_eq_none (List.drop_eq_nil_iff.mp left)]
      trivial
  | cons c rest =>
      rw [element_drop left, value_bind]
      rw [List.headD_cons, Option.map_eq_bind]
      dsimp only
      split
      · refine (parseRfcDate_agrees inside date).bind ?_
        rintro ⟨tm, next⟩ ⟨_, _⟩ ⟨rfl, rfl⟩
        exact ⟨_, rfl, rfl, rfl⟩
      · refine (parseAsctimeDate_agrees inside date).bind ?_
        rintro ⟨tm, next⟩ ⟨_, _⟩ ⟨rfl, rfl⟩
        exact ⟨_, rfl, rfl, rfl⟩

end Agreement

end KcnTools.FtpLine
