import Mathlib.Algebra.Order.Ring.Int

/-
  The Gregorian calendar, extended to every year.

  Days are numbered from the first of January of the year 1.
  Dates are the days of the months that exist; numbering them
  is a bijection that keeps the order of years, months and
  days.

  Key definitions include:
    * `isLeap`, `daysInMonth`
    * `dayNumber`
    * `Date`, `Date.number`, `Date.ofNumber`
    * `weekday`

  Key theorems include:
    * `Date.number_ofNumber`, `Date.ofNumber_number`
    * `Date.number_lt_of_year`, `Date.number_lt_of_month`
-/

------------------------------------------------------------
-- Years And Months
------------------------------------------------------------

namespace Winunitd

namespace Lib

namespace Gregorian

def isLeap (y : Int) : Bool :=
  y % 4 = 0 && (y % 100 ≠ 0 || y % 400 = 0)

def daysInYear (leap : Bool) : Int :=
  if leap then 366 else 365

def daysInMonth (leap : Bool) (m : Int) : Int :=
  if m = 2 then if leap then 29 else 28
  else if m = 4 ∨ m = 6 ∨ m = 9 ∨ m = 11 then 30
  else 31

/- The number of the first of January. -/
def yearStart (y : Int) : Int :=
  365 * (y - 1) + (y - 1) / 4 - (y - 1) / 100 + (y - 1) / 400

/-
  The days of the year before a month.  The fraction is that of
  a year whose second month has thirty days.
-/
def monthStart (leap : Bool) (m : Int) : Int :=
  (367 * m - 362) / 12 - if m ≤ 2 then 0 else if leap then 1 else 2

theorem yearStart_succ
    (y : Int) :
    yearStart (y + 1) = yearStart y + daysInYear (isLeap y) := by
  unfold yearStart daysInYear isLeap
  simp only [Bool.and_eq_true, decide_eq_true_eq, Bool.or_eq_true,
    ne_eq]
  split <;> omega

theorem daysInYear_bounds
    (leap : Bool) :
    365 ≤ daysInYear leap ∧ daysInYear leap ≤ 366 := by
  cases leap <;> decide

theorem yearStart_add_bounds
    (y : Int)
    (k : Nat) :
    yearStart y + 365 * k ≤ yearStart (y + k) ∧
      yearStart (y + k) ≤ yearStart y + 366 * k := by
  induction k with
  | zero => simp
  | succ k ih =>
      have hNext := yearStart_succ (y + k)
      have hLength := daysInYear_bounds (isLeap (y + k))
      rw [Int.add_assoc] at hNext
      push_cast
      omega

/- Years follow each other. -/
theorem yearStart_le
    {y y' : Int}
    (h : y ≤ y') :
    yearStart y ≤ yearStart y' := by
  unfold yearStart
  omega

theorem daysInMonth_bounds
    (leap : Bool)
    (m : Int) :
    28 ≤ daysInMonth leap m ∧ daysInMonth leap m ≤ 31 := by
  unfold daysInMonth
  cases leap <;> (split <;> [skip; split]) <;> simp

/- Months follow each other. -/
theorem monthStart_succ
    (leap : Bool)
    {m : Int}
    (hLow : 1 ≤ m)
    (hHigh : m < 12) :
    monthStart leap (m + 1) =
      monthStart leap m + daysInMonth leap m := by
  have hMonth :
      m = 1 ∨ m = 2 ∨ m = 3 ∨ m = 4 ∨ m = 5 ∨ m = 6 ∨ m = 7 ∨
        m = 8 ∨ m = 9 ∨ m = 10 ∨ m = 11 := by
    omega
  cases leap <;>
    rcases hMonth with h | h | h | h | h | h | h | h | h | h | h <;>
    subst h <;> decide

theorem monthStart_last
    (leap : Bool) :
    monthStart leap 12 + 31 = daysInYear leap := by
  cases leap <;> decide

theorem monthStart_first
    (leap : Bool) :
    monthStart leap 1 = 0 := by
  cases leap <;> decide

theorem monthStart_le
    (leap : Bool)
    {m m' : Int}
    (hLow : 1 ≤ m)
    (h : m ≤ m') :
    monthStart leap m ≤ monthStart leap m' := by
  unfold monthStart
  cases leap <;> simp only [Bool.false_eq_true, ↓reduceIte] <;> omega

variable {leap : Bool}

/- A day of a month comes before the next month. -/
theorem day_lt_monthStart
    {m m' d : Int}
    (hLow : 1 ≤ m)
    (h : m < m')
    (hHigh : m' ≤ 12)
    (hDay : d ≤ daysInMonth leap m) :
    monthStart leap m + d - 1 < monthStart leap m' := by
  have hNext := monthStart_succ leap hLow (by omega : m < 12)
  have hLe : monthStart leap (m + 1) ≤ monthStart leap m' :=
    monthStart_le leap (by omega) (by omega)
  omega

/- A day of a month comes before the next year. -/
theorem day_lt_daysInYear
    {m d : Int}
    (hLow : 1 ≤ m)
    (hHigh : m ≤ 12)
    (hDay : d ≤ daysInMonth leap m) :
    monthStart leap m + d - 1 < daysInYear leap := by
  rcases eq_or_lt_of_le hHigh with hLast | hBefore
  · subst hLast
    have hEnd := monthStart_last leap
    have hLength := daysInMonth_bounds leap 12
    omega
  · have hLt := day_lt_monthStart hLow hBefore le_rfl hDay
    have hEnd := monthStart_last leap
    omega

------------------------------------------------------------
-- Dates
------------------------------------------------------------

/- The number of a day; it may lie outside of its month. -/
def dayNumber (y m d : Int) : Int :=
  yearStart y + monthStart (isLeap y) m + d - 1

/- A day of a month that exists. -/
@[ext]
structure Date where
  year : Int
  month : Int
  day : Int
  month_pos : 1 ≤ month
  month_le : month ≤ 12
  day_pos : 1 ≤ day
  day_le : day ≤ daysInMonth (isLeap year) month
deriving DecidableEq

/- The year that holds a day; the estimate is off by at most one. -/
def yearOf (n : Int) : Int :=
  let y := 400 * n / 146097 + 1
  if n < yearStart y then y - 1
  else if yearStart (y + 1) ≤ n then y + 1
  else y

theorem yearOf_spec
    (n : Int) :
    yearStart (yearOf n) ≤ n ∧ n < yearStart (yearOf n + 1) := by
  unfold yearOf
  dsimp only
  unfold yearStart
  split
  · constructor <;> omega
  · split
    · constructor <;> omega
    · constructor <;> omega

/- The month that holds a day of the year. -/
def monthOf (leap : Bool) (o : Int) : Int :=
  (12 * (o + if o < monthStart leap 3 then 0
    else if leap then 1 else 2) + 373) / 367

theorem monthOf_spec
    {o : Int}
    (hLow : 0 ≤ o)
    (hHigh : o < daysInYear leap) :
    1 ≤ monthOf leap o ∧ monthOf leap o ≤ 12 ∧
      monthStart leap (monthOf leap o) ≤ o ∧
      o < monthStart leap (monthOf leap o) +
        daysInMonth leap (monthOf leap o) := by
  have hMonth : 1 ≤ monthOf leap o ∧ monthOf leap o ≤ 12 := by
    unfold monthOf monthStart
    cases leap <;> simp [daysInYear] at * <;> omega
  have hStart : monthStart leap (monthOf leap o) ≤ o := by
    unfold monthOf monthStart
    cases leap <;> simp [daysInYear] at * <;> omega
  have hNext : o < monthStart leap (monthOf leap o + 1) := by
    unfold monthOf monthStart
    cases leap <;> simp [daysInYear] at * <;> omega
  refine ⟨hMonth.1, hMonth.2, hStart, ?_⟩
  rcases eq_or_lt_of_le hMonth.2 with hLast | hBefore
  · rw [hLast] at hStart ⊢
    have hEnd := monthStart_last leap
    have hLength : daysInMonth leap 12 = 31 := by
      cases leap <;> decide
    omega
  · rw [← monthStart_succ leap hMonth.1 hBefore]
    exact hNext

namespace Date

def number (d : Date) : Int :=
  dayNumber d.year d.month d.day

/- What is left of a day after its year is a day of the year. -/
theorem ordinal_bounds
    (n : Int) :
    0 ≤ n - yearStart (yearOf n) ∧
      n - yearStart (yearOf n) < daysInYear (isLeap (yearOf n)) := by
  have hYear := yearOf_spec n
  rw [yearStart_succ] at hYear
  omega

/- The date of a day. -/
def ofNumber (n : Int) : Date :=
  let leap := isLeap (yearOf n)
  let o := n - yearStart (yearOf n)
  have hMonth :=
    monthOf_spec (ordinal_bounds n).1 (ordinal_bounds n).2
  { year := yearOf n
    month := monthOf leap o
    day := o - monthStart leap (monthOf leap o) + 1
    month_pos := hMonth.1
    month_le := hMonth.2.1
    day_pos := by
      have hStart := hMonth.2.2.1
      dsimp only [leap, o]
      omega
    day_le := by
      have hEnd := hMonth.2.2.2
      dsimp only [leap, o]
      omega }

@[simp] theorem number_ofNumber
    (n : Int) :
    (ofNumber n).number = n := by
  unfold number ofNumber dayNumber
  dsimp only
  omega

variable {d e : Date}

/- A day lies in its year. -/
theorem yearStart_le_number
    (d : Date) :
    yearStart d.year ≤ d.number := by
  have hMonth :=
    monthStart_le (isLeap d.year) (le_refl 1) d.month_pos
  rw [monthStart_first] at hMonth
  have hDay := d.day_pos
  unfold number dayNumber
  omega

theorem number_lt_yearStart
    (d : Date) :
    d.number < yearStart (d.year + 1) := by
  have hDay := day_lt_daysInYear d.month_pos d.month_le d.day_le
  rw [yearStart_succ]
  unfold number dayNumber
  omega

/- Numbers keep the order of years, months and days. -/
theorem number_lt_of_year
    (h : d.year < e.year) :
    d.number < e.number :=
  calc
    d.number < yearStart (d.year + 1) := d.number_lt_yearStart
    _ ≤ yearStart e.year := yearStart_le h
    _ ≤ e.number := e.yearStart_le_number

theorem number_lt_of_month
    (hYear : d.year = e.year)
    (h : d.month < e.month) :
    d.number < e.number := by
  have hDay := day_lt_monthStart d.month_pos h e.month_le d.day_le
  have hFirst := e.day_pos
  rw [hYear] at hDay
  unfold number dayNumber
  rw [hYear]
  omega

theorem number_lt_iff_day
    (hYear : d.year = e.year)
    (hMonth : d.month = e.month) :
    d.number < e.number ↔ d.day < e.day := by
  unfold number dayNumber
  rw [hYear, hMonth]
  omega

theorem year_le
    (h : d.number ≤ e.number) :
    d.year ≤ e.year := by
  by_contra hLt
  have hBack := number_lt_of_year (not_le.mp hLt)
  omega

theorem number_injective
    (h : d.number = e.number) :
    d = e := by
  have hYear : d.year = e.year :=
    le_antisymm (year_le h.le) (year_le h.ge)
  have hMonth : d.month = e.month := by
    rcases lt_trichotomy d.month e.month with hLt | hEq | hGt
    · have := number_lt_of_month hYear hLt
      omega
    · exact hEq
    · have := number_lt_of_month hYear.symm hGt
      omega
  have hDay : d.day = e.day := by
    unfold number dayNumber at h
    rw [hYear, hMonth] at h
    omega
  exact Date.ext hYear hMonth hDay

@[simp] theorem ofNumber_number
    (d : Date) :
    ofNumber d.number = d :=
  number_injective (number_ofNumber d.number)

end Date

/- The day of the week; the first day of the year 1 is day one. -/
def weekday (n : Int) : Fin 7 :=
  ⟨((n + 1) % 7).toNat, by omega⟩

end Gregorian

end Lib

end Winunitd
