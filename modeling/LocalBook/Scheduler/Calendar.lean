import Mathlib

/-! The Gregorian calendar, with days counted from the first of January of the year one, a
Monday. -/
namespace LocalBook.Calendar

def isLeap (year : Nat) : Bool := year % 4 = 0 && (year % 100 ≠ 0 || year % 400 = 0)

def yearLength (leap : Bool) : Nat := if leap then 366 else 365

def monthLengths (leap : Bool) : List Nat :=
  [31,if leap then 29 else 28,31,30,31,30,31,31,30,31,30,31]

def monthDayFrom : Nat → List Nat → Nat → Nat × Nat
  | month,[],j => (month,j + 1)
  | month,length :: rest,j =>
    if j < length then (month,j + 1) else monthDayFrom (month + 1) rest (j - length)

def monthDay (leap : Bool) (j : Nat) : Nat × Nat := monthDayFrom 1 (monthLengths leap) j

def dayOfYear (leap : Bool) (month day : Nat) : Nat :=
  ((monthLengths leap).take (month - 1)).sum + (day - 1)

def nextDay (day : Nat × Nat) : Nat × Nat :=
  if day.2 + 1 < yearLength (isLeap day.1) then (day.1,day.2 + 1) else (day.1 + 1,0)

def yearDay : Nat → Nat × Nat
  | 0 => (1,0)
  | n + 1 => nextDay (yearDay n)

/-- The month and the day of a day. -/
def date (n : Nat) : Nat × Nat := monthDay (isLeap (yearDay n).1) (yearDay n).2

def weekday (n : Nat) : Nat := n % 7

def yearStart : Nat → Nat
  | 0 => 0
  | y + 1 => yearStart y + yearLength (isLeap (y + 1))

theorem yearDay_lt (n : Nat) : (yearDay n).2 < yearLength (isLeap (yearDay n).1) := by
  induction n with
  | zero => decide
  | succ n ih =>
    rw [yearDay,nextDay]
    split
    · assumption
    · cases isLeap ((yearDay n).1 + 1) <;> simp [yearLength]

theorem yearDay_add {n y j k : Nat} (here : yearDay n = (y,j))
    (within : j + k < yearLength (isLeap y)) : yearDay (n + k) = (y,j + k) := by
  induction k with
  | zero => exact here
  | succ k ih =>
    have inside : j + k + 1 < yearLength (isLeap y) := by omega
    rw [← Nat.add_assoc,yearDay,ih (by omega),nextDay,if_pos inside,Nat.add_assoc]

/-- The first day of the next year. -/
theorem yearDay_newYear {n y j : Nat} (here : yearDay n = (y,j)) :
    yearDay (n + (yearLength (isLeap y) - j)) = (y + 1,0) := by
  have bound := yearDay_lt n
  rw [here] at bound
  obtain ⟨k,length⟩ : ∃ k, yearLength (isLeap y) - j = k + 1 := Nat.exists_eq_succ_of_ne_zero
    (by simp only at bound; omega)
  rw [length,← Nat.add_assoc,yearDay,yearDay_add here (by omega),nextDay,if_neg]
  simp only
  omega

theorem yearDay_yearStart (y : Nat) : yearDay (yearStart y) = (y + 1,0) := by
  induction y with
  | zero => rfl
  | succ y ih => exact yearDay_newYear ih

def Yearly (month day : Nat) : Prop :=
  1 ≤ month ∧ month ≤ 12 ∧ 1 ≤ day ∧ day ≤ (monthLengths false)[month - 1]?.getD 0

instance (month day : Nat) : Decidable (Yearly month day) := inferInstanceAs (Decidable (_ ∧ _))

theorem monthDay_bounds : ∀ leap, ∀ j < yearLength leap,
    1 ≤ (monthDay leap j).1 ∧ (monthDay leap j).1 ≤ 12 ∧ 1 ≤ (monthDay leap j).2 ∧
      ((monthDay leap j) = (2,29) ∨ Yearly (monthDay leap j).1 (monthDay leap j).2) := by
  decide +kernel

theorem dayOfYear_table : ∀ month < 13, ∀ day < 32, Yearly month day →
    (∀ leap, dayOfYear leap month day < yearLength leap ∧
      monthDay leap (dayOfYear leap month day) = (month,day)) ∧
      dayOfYear false month day ≤ dayOfYear true month day ∧
      dayOfYear true month day ≤ dayOfYear false month day + 1 := by
  decide +kernel

theorem Yearly.day_le {month day : Nat} (yearly : Yearly month day) : day < 32 := by
  have lengths : ∀ month < 13, (monthLengths false)[month - 1]?.getD 0 ≤ 31 := by decide
  have bound := lengths month (by have := yearly.2.1; omega)
  have := yearly.2.2.2
  omega

/-- The days of a year that are an offset apart. -/
theorem date_add {n y j : Nat} (here : yearDay n = (y,j)) (k : Nat)
    (within : j + k < yearLength (isLeap y)) : date (n + k) = monthDay (isLeap y) (j + k) := by
  rw [date,yearDay_add here within]

/-- Every day of the calendar comes again within a year. -/
theorem exists_day {month day : Nat} (yearly : Yearly month day) (n : Nat) :
    ∃ k y, 1 ≤ k ∧ k ≤ 366 ∧ yearDay (n + k) = (y,dayOfYear (isLeap y) month day) := by
  obtain ⟨places,low,high⟩ := dayOfYear_table month (by have := yearly.2.1; omega) day
    yearly.day_le yearly
  cases here : yearDay n with
  | mk y j =>
    have bound := yearDay_lt n
    rw [here] at bound
    simp only at bound
    have own := places (isLeap y)
    have next := places (isLeap (y + 1))
    by_cases ahead : j < dayOfYear (isLeap y) month day
    · refine ⟨dayOfYear (isLeap y) month day - j,y,by omega,?_,?_⟩
      · have length : yearLength (isLeap y) ≤ 366 := by
          cases isLeap y <;> decide
        omega
      · rw [yearDay_add here (by omega),Nat.add_sub_of_le ahead.le]
    · refine ⟨(yearLength (isLeap y) - j) + dayOfYear (isLeap (y + 1)) month day,y + 1,by omega,
        ?_,?_⟩
      · cases leap : isLeap y <;> cases leap' : isLeap (y + 1) <;>
          simp only [leap,leap',yearLength] at * <;> simp at * <;> omega
      · rw [← Nat.add_assoc,yearDay_add (yearDay_newYear here) (by rw [Nat.zero_add]; exact next.1),
          Nat.zero_add]

theorem exists_date {month day : Nat} (yearly : Yearly month day) (n : Nat) :
    ∃ k, 1 ≤ k ∧ k ≤ 366 ∧ date (n + k) = (month,day) := by
  obtain ⟨k,y,first,last,there⟩ := exists_day yearly n
  refine ⟨k,first,last,?_⟩
  rw [date,there]
  exact ((dayOfYear_table month (by have := yearly.2.1; omega) day yearly.day_le yearly).1 _).2

/-- Within a year and a week there is a day of a month that falls on a given weekday. -/
theorem exists_weekday {month : Nat} (valid : 1 ≤ month ∧ month ≤ 12) {w : Nat} (week : w < 7)
    (n : Nat) : ∃ k, 1 ≤ k ∧ k < 400 ∧ (date (n + k)).1 = month ∧ weekday (n + k) = w := by
  have weeks : ∀ month < 13, 1 ≤ month → ∀ i < 7, Yearly month (1 + i) := by decide
  have yearly := weeks month (by omega) valid.1
  obtain ⟨k,y,first,last,there⟩ := exists_day (yearly 0 (by omega)) n
  -- The first seven days of the month have every weekday among them.
  refine ⟨k + (w + 7 - weekday (n + k)) % 7,by omega,by omega,?_,?_⟩
  · have inWeek : (w + 7 - weekday (n + k)) % 7 < 7 := Nat.mod_lt _ (by decide)
    have table := dayOfYear_table month (by omega) _ (yearly _ inWeek).day_le (yearly _ inWeek)
    have shifted : ∀ i, dayOfYear (isLeap y) month (1 + 0) + i = dayOfYear (isLeap y) month (1 + i) := by
      intro i
      simp only [dayOfYear]
      omega
    rw [← Nat.add_assoc,date_add there _ (by rw [shifted]; exact (table.1 _).1),shifted,
      (table.1 _).2]
  · simp only [weekday]
    omega

/-- Some year of the calendar has a day early in a month fall on a given weekday. -/
theorem exists_early : ∀ month < 13, 1 ≤ month → ∀ day < 3, 1 ≤ day → ∀ w < 7, ∃ y < 29,
    weekday (yearStart (y + 1) + dayOfYear (isLeap (y + 2)) month day) = w := by
  decide +kernel

theorem date_yearStart {month day : Nat} (yearly : Yearly month day) (y : Nat) :
    date (yearStart y + dayOfYear (isLeap (y + 1)) month day) = (month,day) := by
  have table := dayOfYear_table month (by have := yearly.2.1; omega) day yearly.day_le yearly
  rw [date_add (yearDay_yearStart y) _ (by rw [Nat.zero_add]; exact (table.1 _).1),Nat.zero_add]
  exact (table.1 _).2

/-- A day is in the calendar of every year, or it is the last of February in a leap year. -/
theorem date_cases (n : Nat) : date n = (2,29) ∨ Yearly (date n).1 (date n).2 :=
  (monthDay_bounds _ _ (yearDay_lt n)).2.2.2

theorem date_le (n : Nat) : (date n).2 ≤ 31 := by
  rcases date_cases n with last | yearly
  · simp [last]
  · exact Nat.lt_succ_iff.mp yearly.day_le

/-- The last of February of the year four, and of the year eight. -/
theorem date_leapYears : date (yearStart 3 + 59) = (2,29) ∧ date (yearStart 7 + 59) = (2,29) := by
  constructor
  · rw [date_add (yearDay_yearStart 3) 59 (by decide)]
    rfl
  · rw [date_add (yearDay_yearStart 7) 59 (by decide)]
    rfl

/-- It does not come again within four hundred days. -/
theorem date_ne_leap {k : Nat} (first : 1 ≤ k) (last : k < 400) :
    date (yearStart 3 + 59 + k) ≠ (2,29) := by
  have onlyOne : ∀ j < 366, 59 < j → monthDay true j ≠ (2,29) := by decide +kernel
  have none : ∀ j < 365, monthDay false j ≠ (2,29) := by decide +kernel
  have year := yearDay_yearStart 3
  have here : yearDay (yearStart 3 + 59) = (4,0 + 59) := yearDay_add year (by decide)
  by_cases same : k < 307
  · rw [date_add here k (by simp [isLeap,yearLength]; omega)]
    exact onlyOne _ (by omega) (by omega)
  · have next := yearDay_newYear here
    obtain ⟨j,rfl⟩ := Nat.exists_eq_add_of_le (Nat.le_of_not_lt same)
    have inside : 0 + j < yearLength (isLeap 5) := by simp [isLeap,yearLength]; omega
    have there := date_add next j inside
    have apart : monthDay (isLeap 5) (0 + j) ≠ (2,29) := by
      rw [Nat.zero_add]
      exact none j (by omega)
    rw [← Nat.add_assoc]
    intro again
    exact apart (there.symm.trans again)

end LocalBook.Calendar
