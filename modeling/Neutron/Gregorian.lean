import Mathlib.Data.List.Basic
import Mathlib.Tactic.Common
import Mathlib.Algebra.Order.Group.Unbundled.Int

/-!
# The proleptic Gregorian calendar

Dates and times of day, counted from 1970-01-01. A day has one date, and the day after a date has the
number after it.
-/

namespace Gregorian

/-- Every fourth year, but of the centuries only every fourth. -/
def Leap (year : Int) : Prop := (4 ∣ year ∧ ¬ 100 ∣ year) ∨ 400 ∣ year

instance (year : Int) : Decidable (Leap year) := inferInstanceAs (Decidable (_ ∨ _))

def yearLength (year : Int) : Int := if Leap year then 366 else 365

/-- The days of a month; months are numbered from one. -/
def monthLength (year : Int) (month : ℕ) : ℕ :=
  if month = 2 then if Leap year then 29 else 28
  else if month = 4 ∨ month = 6 ∨ month = 9 ∨ month = 11 then 30 else 31

theorem monthLength_pos (year : Int) (month : ℕ) : 1 ≤ monthLength year month := by
  unfold monthLength
  split
  · split
    · decide
    · decide
  · split
    · decide
    · decide

/-- The days from 1970-01-01 to the first day of a year. -/
def yearStart (year : Int) : Int :=
  365 * (year - 1970) + ((year - 1) / 4 - 492) - ((year - 1) / 100 - 19) + ((year - 1) / 400 - 4)

/-- The days of the months before a month. -/
def monthStart (year : Int) : ℕ → Int
  | 0 => 0
  | 1 => 0
  | month + 2 => monthStart year (month + 1) + monthLength year (month + 1)

theorem yearStart_epoch : yearStart 1970 = 0 := by decide

theorem yearStart_succ (year : Int) : yearStart (year + 1) = yearStart year + yearLength year := by
  unfold yearStart
  by_cases hleap : Leap year
  · rw [yearLength, if_pos hleap]
    unfold Leap at hleap
    omega
  · rw [yearLength, if_neg hleap]
    unfold Leap at hleap
    omega

theorem yearLength_pos (year : Int) : 0 < yearLength year := by
  unfold yearLength
  split
  · decide
  · decide

theorem yearStart_add_length_le {y z : Int} (h : y < z) : yearStart y + yearLength y ≤ yearStart z := by
  obtain ⟨k, rfl⟩ : ∃ k : ℕ, z = y + 1 + k := ⟨(z - (y + 1)).toNat, by omega⟩
  induction k with
  | zero =>
    have hfirst : y + 1 + ((0 : ℕ) : Int) = y + 1 := Int.add_zero _
    rw [hfirst]
    exact (yearStart_succ y).ge
  | succ k ih =>
    have hle := ih (by omega)
    have hsucc := yearStart_succ (y + 1 + k)
    have hpos := yearLength_pos (y + 1 + k)
    have hlast : y + 1 + ((k + 1 : ℕ) : Int) = y + 1 + k + 1 := by omega
    rw [hlast]
    omega

theorem monthStart_succ (year : Int) {month : ℕ} (h : 1 ≤ month) :
    monthStart year (month + 1) = monthStart year month + monthLength year month := by
  obtain ⟨m, rfl⟩ := Nat.exists_eq_add_of_le' h
  rfl

theorem monthStart_add_length_le (year : Int) {m n : ℕ} (hm : 1 ≤ m) (h : m < n) :
    monthStart year m + monthLength year m ≤ monthStart year n := by
  induction n, h using Nat.le_induction with
  | base => exact (monthStart_succ year hm).ge
  | succ n hle ih =>
    have hsucc := monthStart_succ year (by omega : 1 ≤ n)
    omega

theorem monthStart_nonneg (year : Int) (month : ℕ) : 0 ≤ monthStart year month := by
  induction month with
  | zero => exact le_rfl
  | succ month ih =>
    rcases Nat.eq_zero_or_pos month with rfl | hpos
    · exact le_rfl
    · rw [monthStart_succ year hpos]
      omega

/-- The twelve months make up the year. -/
theorem monthStart_year (year : Int) : monthStart year 13 = yearLength year := by
  by_cases hleap : Leap year
  · simp [monthStart, monthLength, yearLength, hleap]
  · simp [monthStart, monthLength, yearLength, hleap]

/-- A day of the calendar. -/
structure Date where
  year : Int
  month : ℕ
  day : ℕ
  month_pos : 1 ≤ month
  month_le : month ≤ 12
  day_pos : 1 ≤ day
  day_le : day ≤ monthLength year month

namespace Date

theorem ext {d e : Date} (hyear : d.year = e.year) (hmonth : d.month = e.month) (hday : d.day = e.day) : d = e := by
  cases d
  cases e
  cases hyear
  cases hmonth
  cases hday
  rfl

/-- The days since 1970-01-01. -/
def dayNumber (d : Date) : Int := yearStart d.year + monthStart d.year d.month + (d.day - 1)

theorem monthStart_le (d : Date) : monthStart d.year d.month + d.day ≤ yearLength d.year := by
  have hmonth : d.month < 13 := Nat.lt_succ_of_le d.month_le
  have hle := monthStart_add_length_le d.year d.month_pos hmonth
  have hday := d.day_le
  rw [← monthStart_year]
  omega

theorem dayNumber_lt_of_year {d e : Date} (h : d.year < e.year) : d.dayNumber < e.dayNumber := by
  have hd := d.monthStart_le
  have hle := yearStart_add_length_le h
  have hnonneg := monthStart_nonneg e.year e.month
  have hday := e.day_pos
  unfold dayNumber
  omega

theorem dayNumber_lt_of_month {d e : Date} (hyear : d.year = e.year) (h : d.month < e.month) :
    d.dayNumber < e.dayNumber := by
  have hle := monthStart_add_length_le d.year d.month_pos h
  have hd := d.day_le
  have hday := e.day_pos
  unfold dayNumber
  rw [← hyear]
  omega

/-- No two dates are the same day. -/
theorem dayNumber_injective {d e : Date} (h : d.dayNumber = e.dayNumber) : d = e := by
  rcases lt_trichotomy d.year e.year with hlt | hyear | hlt
  · exact absurd h (dayNumber_lt_of_year hlt).ne
  · rcases lt_trichotomy d.month e.month with hmonth | hmonth | hmonth
    · exact absurd h (dayNumber_lt_of_month hyear hmonth).ne
    · unfold dayNumber at h
      rw [hyear, hmonth] at h
      exact ext hyear hmonth (by omega)
    · exact absurd h.symm (dayNumber_lt_of_month hyear.symm hmonth).ne
  · exact absurd h.symm (dayNumber_lt_of_year hlt).ne

/-- The day after: in the month, at the start of the next month, or of the next year. -/
def next (d : Date) : Date :=
  if hday : d.day < monthLength d.year d.month then
    ⟨d.year, d.month, d.day + 1, d.month_pos, d.month_le, by omega, hday⟩
  else if hmonth : d.month < 12 then
    ⟨d.year, d.month + 1, 1, by omega, hmonth, le_rfl, monthLength_pos ..⟩
  else ⟨d.year + 1, 1, 1, le_rfl, by decide, le_rfl, monthLength_pos ..⟩

theorem dayNumber_next (d : Date) : d.next.dayNumber = d.dayNumber + 1 := by
  have hle := d.day_le
  unfold next
  split
  · simp only [dayNumber]
    omega
  · rename_i hday
    split
    · have hmonths := monthStart_succ d.year d.month_pos
      simp only [dayNumber]
      omega
    · have htwelve : d.month = 12 := by
        have hmonth := d.month_le
        omega
      have hmonths : monthStart d.year 13 = monthStart d.year 12 + monthLength d.year 12 :=
        monthStart_succ d.year (by decide)
      have hyears := yearStart_succ d.year
      have hyear := monthStart_year d.year
      have hfirst : monthStart (d.year + 1) 1 = 0 := rfl
      rw [htwelve] at hday hle
      simp only [dayNumber, htwelve, hfirst]
      omega

end Date

/-- A date with a time of day. -/
structure Moment where
  date : Date
  hour : ℕ
  minute : ℕ
  second : ℕ
  hour_lt : hour < 24
  minute_lt : minute < 60
  second_lt : second < 60

namespace Moment

/-- The seconds since 1970-01-01 00:00:00. -/
def seconds (t : Moment) : Int := 86400 * t.date.dayNumber + (3600 * t.hour + 60 * t.minute + t.second)

/-- No two moments are the same second. -/
theorem seconds_injective {t u : Moment} (h : t.seconds = u.seconds) : t = u := by
  unfold seconds at h
  have hth := t.hour_lt
  have htm := t.minute_lt
  have hts := t.second_lt
  have huh := u.hour_lt
  have hum := u.minute_lt
  have hus := u.second_lt
  have hday : t.date.dayNumber = u.date.dayNumber := by omega
  have hdate := Date.dayNumber_injective hday
  have hhour : t.hour = u.hour := by omega
  have hminute : t.minute = u.minute := by omega
  have hsecond : t.second = u.second := by omega
  cases t
  cases u
  cases hdate
  cases hhour
  cases hminute
  cases hsecond
  rfl

/-- 1970-01-01 00:00:00. -/
def epoch : Moment := ⟨⟨1970, 1, 1, le_rfl, by decide, le_rfl, by decide⟩, 0, 0, 0, by decide, by decide, by decide⟩

/-- The next second. -/
def next (t : Moment) : Moment :=
  if hsecond : t.second < 59 then ⟨t.date, t.hour, t.minute, t.second + 1, t.hour_lt, t.minute_lt, by omega⟩
  else if hminute : t.minute < 59 then ⟨t.date, t.hour, t.minute + 1, 0, t.hour_lt, by omega, by decide⟩
  else if hhour : t.hour < 23 then ⟨t.date, t.hour + 1, 0, 0, by omega, by decide, by decide⟩
  else ⟨t.date.next, 0, 0, 0, by decide, by decide, by decide⟩

theorem seconds_epoch : epoch.seconds = 0 := by decide

theorem seconds_next (t : Moment) : t.next.seconds = t.seconds + 1 := by
  have hhour := t.hour_lt
  have hminute := t.minute_lt
  have hsecond := t.second_lt
  have hday := t.date.dayNumber_next
  unfold next
  split
  · simp only [seconds]
    omega
  · split
    · simp only [seconds]
      omega
    · split
      · simp only [seconds]
        omega
      · simp only [seconds, hday]
        omega

/-- The moment some seconds after the epoch, one second at a time. -/
def after (n : ℕ) : Moment := next^[n] epoch

theorem seconds_after (n : ℕ) : (after n).seconds = n := by
  induction n with
  | zero => exact seconds_epoch
  | succ n ih =>
    have hstep : after (n + 1) = (after n).next := Function.iterate_succ_apply' next n epoch
    rw [hstep, seconds_next, ih]
    rfl

end Moment

end Gregorian
