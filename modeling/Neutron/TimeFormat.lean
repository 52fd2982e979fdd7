import Neutron.Gregorian

/-!
# `time.format`

The date is found by taking the lengths of whole years, then of whole months, off the number of days since
the epoch. What is left over counts from the date found so far, whatever has been taken off.
-/

namespace Neutron.Time

open Gregorian

/-! ## The model -/

def isLeap (year : Int) : Bool := (year.tmod 4 == 0 && year.tmod 100 != 0) || year.tmod 400 == 0

def daysInYear (year : Int) : Int := if isLeap year then 366 else 365

theorem daysInYear_pos (year : Int) : 0 < daysInYear year := by
  unfold daysInYear
  split
  · decide
  · decide

/-- The loop over the years: the year reached and the days left in it. -/
def yearLoop (y remainingDays : Int) : Int × Int :=
  if remainingDays < daysInYear y then (y, remainingDays) else yearLoop (y + 1) (remainingDays - daysInYear y)
termination_by remainingDays.toNat
decreasing_by
  have hpos := daysInYear_pos y
  omega

def monthDays (year : Int) : List Int :=
  if isLeap year then [31, 29, 31, 30, 31, 30, 31, 31, 30, 31, 30, 31]
  else [31, 28, 31, 30, 31, 30, 31, 31, 30, 31, 30, 31]

/-- The loop over the months from index `i` on: the month, or zero when the days reach past them all, and
the days left. -/
def monthLoop (i : ℕ) : List Int → Int → ℕ × Int
  | [], remainingDays => (0, remainingDays)
  | md :: rest, remainingDays =>
    if remainingDays < md then (i + 1, remainingDays) else monthLoop (i + 1) rest (remainingDays - md)

/-- The numbers that the format refers to. -/
structure Fields where
  year : Int
  month : ℕ
  day : ℕ
  hours : ℕ
  minutes : ℕ
  seconds : ℕ

/-- The fields of a time `totalSecs` after the epoch. -/
def fieldsOf (totalSecs : ℕ) : Fields :=
  let days := totalSecs / 86400
  let timeSecs := totalSecs % 86400
  let year := yearLoop 1970 days
  let month := monthLoop 0 (monthDays year.1) year.2
  { year := year.1
    month := if month.1 = 0 then 12 else month.1
    day := (month.2 + 1).toNat
    hours := timeSecs / 3600
    minutes := timeSecs % 3600 / 60
    seconds := timeSecs % 60 }

/-- A number with zeros in front up to `width` characters; a minus sign counts and stands first. -/
def padded (width : ℕ) (n : Int) : List Char :=
  let digits := Nat.toDigits 10 n.natAbs
  if n < 0 then '-' :: digits.leftpad (width - 1) '0' else digits.leftpad width '0'

/-- The loop over the format's characters. -/
def formatLoop (t : Fields) : List Char → List Char
  | '%' :: c :: rest =>
    (match c with
      | 'Y' => padded 4 t.year
      | 'y' => padded 2 (t.year.tmod 100)
      | 'm' => padded 2 t.month
      | 'd' => padded 2 t.day
      | 'H' => padded 2 t.hours
      | 'M' => padded 2 t.minutes
      | 'S' => padded 2 t.seconds
      | '%' => ['%']
      | c => ['%', c]) ++ formatLoop t rest
  | c :: rest => c :: formatLoop t rest
  | [] => []

def formatTime (totalSecs : ℕ) (fmt : List Char) : List Char := formatLoop (fieldsOf totalSecs) fmt

/-! ## The year and the month found -/

theorem isLeap_iff (year : Int) : isLeap year = true ↔ Leap year := by
  have hdvd : ∀ k : Int, year.tmod k = 0 ↔ k ∣ year := fun k => Int.dvd_iff_tmod_eq_zero.symm
  simp only [isLeap, Leap, Bool.or_eq_true, Bool.and_eq_true, beq_iff_eq, bne_iff_ne, ne_eq, hdvd]

theorem daysInYear_eq (year : Int) : daysInYear year = yearLength year := by
  unfold daysInYear yearLength
  by_cases hleap : Leap year
  · rw [if_pos hleap, if_pos ((isLeap_iff year).mpr hleap)]
  · rw [if_neg hleap, if_neg (fun h => hleap ((isLeap_iff year).mp h))]

theorem monthDays_eq (year : Int) :
    monthDays year = (List.range' 1 12).map (fun month => (monthLength year month : Int)) := by
  unfold monthDays
  by_cases hleap : Leap year
  · rw [if_pos ((isLeap_iff year).mpr hleap)]
    simp [List.range', monthLength, hleap]
  · rw [if_neg (fun h => hleap ((isLeap_iff year).mp h))]
    simp [List.range', monthLength, hleap]

/-- A round of the loop moves the start of the year by what it takes off the days. -/
theorem yearLoop_spec (y remaining : Int) (h : 0 ≤ remaining) :
    0 ≤ (yearLoop y remaining).2 ∧ (yearLoop y remaining).2 < yearLength (yearLoop y remaining).1 ∧
      yearStart (yearLoop y remaining).1 + (yearLoop y remaining).2 = yearStart y + remaining := by
  induction y, remaining using yearLoop.induct with
  | case1 y remaining hlt =>
    rw [yearLoop, if_pos hlt]
    exact ⟨h, daysInYear_eq y ▸ hlt, rfl⟩
  | case2 y remaining hge ih =>
    rw [yearLoop, if_neg hge]
    obtain ⟨hnonneg, hlt, hsum⟩ := ih (by omega)
    refine ⟨hnonneg, hlt, hsum.trans ?_⟩
    have hsucc := yearStart_succ y
    have hlength := daysInYear_eq y
    omega

/-- With the months from index `i` on, and days that end before the year does. -/
theorem monthLoop_spec {year : Int} {i count : ℕ} {remaining : Int} {found : ℕ × Int} (hcount : i + count = 12)
    (h : 0 ≤ remaining) (hyear : monthStart year (i + 1) + remaining < yearLength year)
    (hfound : monthLoop i ((List.range' (i + 1) count).map (fun month => (monthLength year month : Int))) remaining =
      found) :
    i + 1 ≤ found.1 ∧ found.1 ≤ 12 ∧ 0 ≤ found.2 ∧ found.2 < monthLength year found.1 ∧
      monthStart year found.1 + found.2 = monthStart year (i + 1) + remaining := by
  induction count generalizing i remaining with
  | zero =>
    obtain rfl : i = 12 := hcount
    rw [monthStart_year] at hyear
    omega
  | succ count ih =>
    rw [List.range'_succ, List.map_cons, monthLoop] at hfound
    split at hfound
    · rename_i hlt
      subst hfound
      exact ⟨le_rfl, by omega, h, hlt, rfl⟩
    · rename_i hge
      have hsucc := monthStart_succ year (by omega : 1 ≤ i + 1)
      obtain ⟨hlow, hhigh, hnonneg, hlt, hsum⟩ := ih (by omega) (by omega) (by omega) hfound
      exact ⟨by omega, hhigh, hnonneg, hlt, hsum.trans (by omega)⟩

/-! ## The fields of a moment -/

def fieldsAt (t : Moment) : Fields := ⟨t.date.year, t.date.month, t.date.day, t.hour, t.minute, t.second⟩

theorem exists_date (days : ℕ) {found month : _} (hfound : yearLoop 1970 days = found)
    (hmonth : monthLoop 0 (monthDays found.1) found.2 = month) :
    ∃ d : Date, d.dayNumber = days ∧ found.1 = d.year ∧ (if month.1 = 0 then 12 else month.1) = d.month ∧
      (month.2 + 1).toNat = d.day := by
  obtain ⟨hnonneg, hlt, hsum⟩ := yearLoop_spec 1970 days (Int.natCast_nonneg days)
  have hfirst : monthStart found.1 1 = 0 := rfl
  rw [yearStart_epoch, zero_add, hfound] at hsum
  rw [hfound] at hnonneg hlt
  rw [monthDays_eq] at hmonth
  obtain ⟨hlow, hhigh, hday, hlast, hstart⟩ := monthLoop_spec rfl hnonneg (by rw [hfirst, zero_add]; exact hlt) hmonth
  rw [Nat.zero_add] at hstart
  refine ⟨⟨found.1, month.1, (month.2 + 1).toNat, hlow, hhigh, by omega, by omega⟩, ?_, rfl, if_neg (by omega), rfl⟩
  simp only [Date.dayNumber]
  omega

/-- The fields are those of the one moment that is so many seconds after the epoch. -/
theorem fieldsOf_gregorian (totalSecs : ℕ) :
    ∃ t : Moment, fieldsOf totalSecs = fieldsAt t ∧ t = Moment.after totalSecs ∧ t.seconds = totalSecs ∧
      ∀ u : Moment, u.seconds = totalSecs → u = t := by
  obtain ⟨d, hnumber, hyear, hmonth, hday⟩ := exists_date (totalSecs / 86400) rfl rfl
  have hmod := Nat.mod_lt totalSecs (by decide : 0 < 86400)
  let t : Moment := ⟨d, totalSecs % 86400 / 3600, totalSecs % 86400 % 3600 / 60, totalSecs % 86400 % 60,
    by omega, by omega, by omega⟩
  have hfields : fieldsOf totalSecs = fieldsAt t := by
    simp only [fieldsOf, fieldsAt, Fields.mk.injEq]
    exact ⟨hyear, hmonth, hday, rfl, rfl, rfl⟩
  have hseconds : t.seconds = totalSecs := by
    simp only [t, Moment.seconds, hnumber]
    omega
  exact ⟨t, hfields, Moment.seconds_injective (hseconds.trans (Moment.seconds_after totalSecs).symm), hseconds,
    fun u hu => Moment.seconds_injective (hu.trans hseconds.symm)⟩

end Neutron.Time
