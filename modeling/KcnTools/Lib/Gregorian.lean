import Mathlib.Order.Monotone.Basic
import Mathlib.Data.List.Basic

/-!
The Gregorian calendar from 1970 on, in whole seconds. Months are counted from zero. One moment
is before another, field by field, exactly when fewer seconds have gone by.
-/

namespace KcnTools.Gregorian

def Leap (year : Nat) : Prop := year % 4 = 0 ∧ (year % 100 ≠ 0 ∨ year % 400 = 0)

instance (year : Nat) : Decidable (Leap year) := inferInstanceAs (Decidable (_ ∧ _))

def monthDays (year : Nat) : Nat → Nat
  | 1 => if Leap year then 29 else 28
  | 3 | 5 | 8 | 10 => 30
  | _ => 31

def daysBeforeMonth (year : Nat) : Nat → Nat
  | 0 => 0
  | month + 1 => daysBeforeMonth year month + monthDays year month

def yearDays (year : Nat) : Nat := daysBeforeMonth year 12

def daysBeforeYear : Nat → Nat
  | 0 => 0
  | years + 1 => daysBeforeYear years + yearDays (1970 + years)

structure Moment where
  year : Nat
  month : Nat
  day : Nat
  hour : Nat
  minute : Nat
  second : Nat
  year_ge : 1970 ≤ year
  month_lt : month < 12
  day_pos : 1 ≤ day
  day_le : day ≤ monthDays year month
  hour_lt : hour < 24
  minute_lt : minute < 60
  second_lt : second < 60

namespace Moment

def days (m : Moment) : Nat :=
  daysBeforeYear (m.year - 1970) + daysBeforeMonth m.year m.month + (m.day - 1)

def clock (m : Moment) : Nat := (m.hour * 60 + m.minute) * 60 + m.second

def seconds (m : Moment) : Nat := m.days * 86400 + m.clock

def Before (a b : Moment) : Prop :=
  a.year < b.year ∨ a.year = b.year ∧ (a.month < b.month ∨ a.month = b.month ∧
    (a.day < b.day ∨ a.day = b.day ∧ (a.hour < b.hour ∨ a.hour = b.hour ∧
      (a.minute < b.minute ∨ a.minute = b.minute ∧ a.second < b.second))))

end Moment

theorem daysBeforeMonth_mono (year : Nat) : Monotone (daysBeforeMonth year) :=
  monotone_nat_of_le_succ fun _ => Nat.le_add_right _ _

theorem daysBeforeYear_mono : Monotone daysBeforeYear :=
  monotone_nat_of_le_succ fun _ => Nat.le_add_right _ _

namespace Moment

theorem clock_lt (m : Moment) : m.clock < 86400 := by
  have hour := m.hour_lt
  have minute := m.minute_lt
  have second := m.second_lt
  simp only [clock]
  omega

theorem dayOfYear_lt (m : Moment) :
    daysBeforeMonth m.year m.month + (m.day - 1) < daysBeforeMonth m.year (m.month + 1) := by
  have pos := m.day_pos
  have le := m.day_le
  simp only [daysBeforeMonth]
  omega

theorem days_lt_of_year {a b : Moment} (earlier : a.year < b.year) : a.days < b.days := by
  have inYear := dayOfYear_lt a
  have whole : daysBeforeMonth a.year (a.month + 1) ≤ yearDays a.year :=
    daysBeforeMonth_mono a.year (Nat.succ_le_of_lt a.month_lt)
  have start := a.year_ge
  have later : daysBeforeYear (a.year - 1970 + 1) ≤ daysBeforeYear (b.year - 1970) :=
    daysBeforeYear_mono (by omega)
  have next : 1970 + (a.year - 1970) = a.year := by omega
  simp only [daysBeforeYear, next] at later
  simp only [days]
  omega

theorem days_lt_of_month {a b : Moment} (same : a.year = b.year) (earlier : a.month < b.month) :
    a.days < b.days := by
  have inMonth := dayOfYear_lt a
  have later : daysBeforeMonth a.year (a.month + 1) ≤ daysBeforeMonth a.year b.month :=
    daysBeforeMonth_mono a.year earlier
  simp only [days, ← same]
  omega

theorem seconds_lt_of_days {a b : Moment} (earlier : a.days < b.days) : a.seconds < b.seconds := by
  have clock := clock_lt a
  simp only [seconds]
  omega

theorem seconds_lt_of_clock {a b : Moment} (same : a.days = b.days) (earlier : a.clock < b.clock) :
    a.seconds < b.seconds := by
  simp only [seconds]
  omega

theorem days_lt_of_day {a b : Moment} (year : a.year = b.year) (month : a.month = b.month)
    (earlier : a.day < b.day) : a.days < b.days := by
  have pos := a.day_pos
  simp only [days, year, month]
  omega

theorem days_eq {a b : Moment} (year : a.year = b.year) (month : a.month = b.month)
    (day : a.day = b.day) : a.days = b.days := by
  simp only [days, year, month, day]

theorem seconds_lt {a b : Moment} (before : a.Before b) : a.seconds < b.seconds := by
  rcases before with year | ⟨year, month | ⟨month, day | ⟨day, clock⟩⟩⟩
  · exact seconds_lt_of_days (days_lt_of_year year)
  · exact seconds_lt_of_days (days_lt_of_month year month)
  · exact seconds_lt_of_days (days_lt_of_day year month day)
  · apply seconds_lt_of_clock (days_eq year month day)
    have minutes := a.minute_lt
    have seconds := a.second_lt
    simp only [Moment.clock]
    rcases clock with hour | ⟨hour, minute | ⟨minute, second⟩⟩ <;> omega

theorem before_or_after (a b : Moment) : a.Before b ∨ b.Before a ∨ a.seconds = b.seconds := by
  by_cases same : a.year = b.year ∧ a.month = b.month ∧ a.day = b.day ∧ a.hour = b.hour ∧
      a.minute = b.minute ∧ a.second = b.second
  · obtain ⟨year, month, day, hour, minute, second⟩ := same
    right; right
    simp only [seconds, days_eq year month day, clock, hour, minute, second]
  · simp only [Before]
    omega

theorem seconds_lt_iff (a b : Moment) : a.seconds < b.seconds ↔ a.Before b := by
  constructor
  · intro less
    rcases before_or_after a b with before | after | same
    · exact before
    · have more := seconds_lt after
      omega
    · omega
  · exact seconds_lt

end Moment

/-- From March on five months have 153 days, in the pattern of the division. -/
theorem daysBeforeMonth_eq (year : Nat) {month : Nat} (bound : month < 12) :
    daysBeforeMonth year month = if month < 2 then 31 * month
      else 59 + (if Leap year then 1 else 0) + ((month - 2) * 153 + 2) / 5 := by
  have cases : month = 0 ∨ month = 1 ∨ month = 2 ∨ month = 3 ∨ month = 4 ∨ month = 5 ∨ month = 6 ∨
      month = 7 ∨ month = 8 ∨ month = 9 ∨ month = 10 ∨ month = 11 := by
    omega
  by_cases leap : Leap year <;>
    rcases cases with rfl | rfl | rfl | rfl | rfl | rfl | rfl | rfl | rfl | rfl | rfl | rfl <;>
    simp [daysBeforeMonth, monthDays, leap]

theorem yearDays_eq (year : Nat) : yearDays year = if Leap year then 366 else 365 := by
  by_cases leap : Leap year <;> simp [yearDays, daysBeforeMonth, monthDays, leap]

theorem leap_iff {year : Nat} (start : 1970 ≤ year) (bound : year < 2100) :
    Leap year ↔ year % 4 = 0 := by
  simp only [Leap]
  omega

theorem daysBeforeYear_eq {years : Nat} (bound : years ≤ 130) :
    daysBeforeYear years = 365 * years + (years + 1) / 4 := by
  induction years with
  | zero => rfl
  | succ years ih =>
      have leap : Leap (1970 + years) ↔ (1970 + years) % 4 = 0 := leap_iff (by omega) (by omega)
      simp only [daysBeforeYear, yearDays_eq, ih (by omega)]
      split
      · rename_i isLeap
        have divides := leap.mp isLeap
        omega
      · rename_i notLeap
        have rest := mt leap.mpr notLeap
        omega

end KcnTools.Gregorian
