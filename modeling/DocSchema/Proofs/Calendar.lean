-- SUMMARY: Every count of days has a day of the calendar, and that day gives the count back.
import DocSchema.Date.Calendar

/-!
# Days and dates

An era has 400 years that begin in March, so four centuries, the last of them a
day longer. `EraDay` names a day of an era by its century, the four-year cycle
and the year in it, and the day of the year. Every day of an era has such a name
(`EraDay.exists_count_eq`), and on it the divisions of `ofDays` come out as the
parts of the name. So a count of days gives a day that exists (`ofDays_valid`),
and that day gives the count back (`toDays_ofDays`).
-/

namespace DocSchema

namespace CalendarDay

theorem isLeapYear_iff {year : Int} :
    isLeapYear year = true ↔ year % 4 = 0 ∧ (year % 100 ≠ 0 ∨ year % 400 = 0) := by
  simp [isLeapYear]

theorem daysInMonth_le (year : Int) (month : Nat) : daysInMonth year month ≤ 31 := by
  unfold daysInMonth
  repeat' split
  all_goals omega

/-! ## Days of an era -/

/-- A day of an era. Only the last year of a cycle has a day 365, and that of the last cycle
of a century only in the last century. -/
structure EraDay where
  century : Int
  cycle : Int
  year : Int
  day : Int
  century_bounds : 0 ≤ century ∧ century ≤ 3
  cycle_bounds : 0 ≤ cycle ∧ cycle ≤ 24
  year_bounds : 0 ≤ year ∧ year ≤ 3
  day_bounds : 0 ≤ day ∧ day ≤ 365
  leap : day = 365 → year = 3 ∧ (cycle = 24 → century = 3)

namespace EraDay

/-- Days from the start of the era. -/
def count (e : EraDay) : Int := 36524 * e.century + 1461 * e.cycle + 365 * e.year + e.day

def yearOfEra (e : EraDay) : Int := 100 * e.century + 4 * e.cycle + e.year

/-- The month, counted from March. -/
def month (e : EraDay) : Int := (5 * e.day + 2) / 153

theorem exists_count_eq {n : Int} (h : 0 ≤ n) (h' : n < 146097) : ∃ e : EraDay, e.count = n := by
  -- Division alone would take the last day of a cycle, and of the era, for a fifth part.
  by_cases hlast : n = 146096
  · exact ⟨⟨3, 24, 3, 365, by omega, by omega, by omega, by omega, by omega⟩, by rw [hlast]; rfl⟩
  by_cases hleap : n % 36524 % 1461 = 1460
  · let e : EraDay := ⟨n / 36524, n % 36524 / 1461, 3, 365,
      by omega, by omega, by omega, by omega, by omega⟩
    have hcount : e.count = 36524 * (n / 36524) + 1461 * (n % 36524 / 1461) + 365 * 3 + 365 := rfl
    exact ⟨e, by omega⟩
  · let e : EraDay := ⟨n / 36524, n % 36524 / 1461, n % 36524 % 1461 / 365,
      n % 36524 % 1461 % 365, by omega, by omega, by omega, by omega, by omega⟩
    have hcount : e.count = 36524 * (n / 36524) + 1461 * (n % 36524 / 1461) +
      365 * (n % 36524 % 1461 / 365) + n % 36524 % 1461 % 365 := rfl
    exact ⟨e, by omega⟩

theorem count_bounds (e : EraDay) : 0 ≤ e.count ∧ e.count < 146097 := by
  obtain ⟨c, g, y, d, hc, hg, hy, hd, hleap⟩ := e
  simp only [count]
  omega

theorem yearOfEra_bounds (e : EraDay) : 0 ≤ e.yearOfEra ∧ e.yearOfEra < 400 := by
  obtain ⟨c, g, y, d, hc, hg, hy, hd, hleap⟩ := e
  simp only [yearOfEra]
  omega

theorem month_bounds (e : EraDay) : 0 ≤ e.month ∧ e.month ≤ 11 := by
  have hday := e.day_bounds
  unfold month
  omega

/-- The count less the leap days before it, in years of 365 days. -/
theorem yearOfEra_eq (e : EraDay) :
    (e.count - e.count / 1460 + e.count / 36524 - e.count / 146096) / 365 = e.yearOfEra := by
  obtain ⟨c, g, y, d, hc, hg, hy, hd, hleap⟩ := e
  simp only [count, yearOfEra]
  generalize hn : 36524 * c + 1461 * g + 365 * y + d = n
  -- On the last day of the era both divisions give one more.
  have hcentury : n / 36524 - n / 146096 = c := by
    by_cases hlast : n = 146096
    · omega
    · have hfirst : n / 146096 = 0 := by omega
      omega
  -- A cycle is a day longer than its divisor, so late in it the division runs ahead by one.
  have hcycle : n / 1460 = 25 * c + g ∨
      n / 1460 = 25 * c + g + 1 ∧ 1460 ≤ 24 * c + g + 365 * y + d := by omega
  rcases hcycle with hcycle | ⟨hcycle, hlate⟩
  · omega
  · omega

theorem day_eq (e : EraDay) :
    e.count - (365 * e.yearOfEra + e.yearOfEra / 4 - e.yearOfEra / 100) = e.day := by
  obtain ⟨c, g, y, d, hc, hg, hy, hd, hleap⟩ := e
  simp only [count, yearOfEra]
  omega

/-- A day 365 is the 29th of February, which belongs to the next year of the calendar. -/
theorem isLeapYear_of_day_eq (e : EraDay) (h : e.day = 365) (era : Int) :
    isLeapYear (era * 400 + e.yearOfEra + 1) = true := by
  obtain ⟨c, g, y, d, hc, hg, hy, hd, hleap⟩ := e
  obtain ⟨rfl, hlast⟩ := hleap h
  simp only [isLeapYear_iff, yearOfEra]
  omega

end EraDay

theorem exists_eraDay (days : Int) :
    ∃ (era : Int) (e : EraDay), days = era * 146097 + e.count - 719468 := by
  obtain ⟨e, he⟩ := EraDay.exists_count_eq (n := (days + 719468) % 146097) (by omega) (by omega)
  exact ⟨(days + 719468) / 146097, e, by omega⟩

/-! ## Both ways -/

theorem ofDays_eq (era : Int) (e : EraDay) :
    ofDays (era * 146097 + e.count - 719468) =
      ⟨if e.month < 10 then era * 400 + e.yearOfEra else era * 400 + e.yearOfEra + 1,
        (if e.month < 10 then e.month + 3 else e.month - 9).toNat,
        (e.day - (153 * e.month + 2) / 5 + 1).toNat⟩ := by
  have hcount := e.count_bounds
  have hmonth := e.month_bounds
  have hera : (era * 146097 + e.count - 719468 + 719468) / 146097 = era := by omega
  have hday : (era * 146097 + e.count - 719468 + 719468) % 146097 = e.count := by omega
  unfold ofDays
  simp only [hera, hday, e.yearOfEra_eq, e.day_eq]
  rw [← EraDay.month]
  congr 1
  split <;> split <;> omega

/-- From March to January the months have the lengths that the linear function gives. -/
theorem daysInMonth_of_month (year month : Int) (h : 0 ≤ month ∧ month ≤ 10) :
    (daysInMonth year (if month < 10 then month + 3 else month - 9).toNat : Int) =
      (153 * (month + 1) + 2) / 5 - (153 * month + 2) / 5 := by
  have hmonths : month = 0 ∨ month = 1 ∨ month = 2 ∨ month = 3 ∨ month = 4 ∨ month = 5 ∨
      month = 6 ∨ month = 7 ∨ month = 8 ∨ month = 9 ∨ month = 10 := by omega
  rcases hmonths with rfl | rfl | rfl | rfl | rfl | rfl | rfl | rfl | rfl | rfl | rfl <;> rfl

/-- A count of days gives a day that exists. -/
theorem ofDays_valid (days : Int) : (ofDays days).Valid := by
  obtain ⟨era, e, rfl⟩ := exists_eraDay days
  have hday := e.day_bounds
  have hmonth := e.month_bounds
  have hlinear : e.month = (5 * e.day + 2) / 153 := rfl
  rw [ofDays_eq]
  refine ⟨?_, ?_, ?_, ?_⟩
  · dsimp only
    split <;> omega
  · dsimp only
    split <;> omega
  · dsimp only
    omega
  · by_cases hfebruary : e.month = 11
    · have hlength (year : Int) : daysInMonth year 2 = if isLeapYear year then 29 else 28 := rfl
      simp only [hfebruary] at hlinear ⊢
      change _ ≤ daysInMonth (era * 400 + e.yearOfEra + 1) 2
      rw [hlength]
      by_cases hlast : e.day = 365
      · rw [e.isLeapYear_of_day_eq hlast era, if_pos rfl]
        omega
      · split <;> omega
    · have hlength := daysInMonth_of_month
        (if e.month < 10 then era * 400 + e.yearOfEra else era * 400 + e.yearOfEra + 1) e.month
        (by omega)
      dsimp only
      omega

/-- The day of a count gives the count back. -/
theorem toDays_ofDays (days : Int) : (ofDays days).toDays = days := by
  obtain ⟨era, e, rfl⟩ := exists_eraDay days
  have hday := e.day_bounds
  have hmonth := e.month_bounds
  have hyear := e.yearOfEra_bounds
  have hlinear : e.month = (5 * e.day + 2) / 153 := rfl
  have hcount := e.day_eq
  rw [ofDays_eq]
  unfold toDays
  dsimp only
  split <;> split <;> omega

end CalendarDay

end DocSchema
